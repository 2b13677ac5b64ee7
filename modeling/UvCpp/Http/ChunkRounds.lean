import Mathlib.Algebra.BigOperators.Intervals
import Mathlib.Algebra.Order.BigOperators.Group.Finset
import UvCpp.Systems.Walk
import UvCpp.Http.Chunked

/-!
# Rounds of the loop of `isCompletedChunked`

A round ends the loop, or leads to the next place in the content: past the line of a chunk, and as
many bytes further as the line says. `stoi` reads a sign, and unsigned arithmetic wraps; so a chunk
of a negative size leads back, by as much, unless that is before the start of the content. With each
round more is put together (`Adds`), until a string cannot hold it and the loop ends with an error. So
a loop that comes back to a place goes on for ever only if it adds nothing on the way round, and the
only chunks that add nothing are those of negative size whose line ends the content (`LeadsBack`).
The loop ends unless it comes to such a last line, and last lines lead back to it (`TurnsRound`,
`isCompletedChunked_ends_iff`), as on the content `-4` with its CRLF. It ends when no size is negative
(`returns_of_nonnegSizes`), and when the content does not end with CRLF (`returns_of_not_suffix`).

It waits for more bytes when the content breaks off at a place that is reached
(`isCompletedChunked_eq_fail_iff`). Once a content is whole it stays so when more bytes come
(`isCompletedChunked_append`).
-/

namespace UvCpp.Http.Response

open UvCpp.Cpp UvCpp.Systems Relation

/-- The line of a chunk begins at `p`, and the chunk, of which there is `d`, ends at `q`. -/
def Leads (content d : Bytes) (p q : ℕ) : Prop :=
  ∃ l u z, content.drop p = l ++ 13 :: 10 :: u ∧ IsSizeLine l z ∧ z ≠ 0 ∧
    (q : ℤ) = p + l.length + 2 + z ∧ q ≤ content.length ∧ d = u.take (toUInt64 z)

/-- From a place, with so many bytes put together, a chunk leads to a place with so many, and a string
can hold them. -/
def Adds (content : Bytes) (a b : ℕ × ℕ) : Prop :=
  ∃ d, Leads content d a.1 b.1 ∧ b.2 = a.2 + d.length ∧ b.2 < 2 ^ 63

/-- The line that begins at `p` is the last of the content and has a negative size, and leads back to `q`. -/
def LeadsBack (content : Bytes) (p q : ℕ) : Prop :=
  ∃ l z, content.drop p = l ++ [13, 10] ∧ IsSizeLine l z ∧ z < 0 ∧ (q : ℤ) = content.length + z

/-- Chunks follow each other up to a last line, and last lines lead back to it. -/
def TurnsRound (content : Bytes) : Prop :=
  ∃ p n, ReflTransGen (Adds content) (0, 0) (p, n) ∧ TransGen (LeadsBack content) p p

variable {content d : Bytes} {p q : ℕ}

/-- At most one line begins at a place. -/
theorem line_unique {l l' u u' : Bytes} (h : content.drop p = l ++ 13 :: 10 :: u) (hne : l ≠ [])
    (hone : search [13, 10] l.tail = none) (h' : content.drop p = l' ++ 13 :: 10 :: u') (hne' : l' ≠ [])
    (hone' : search [13, 10] l'.tail = none) : l = l' := by
  have hend := find_line hne hone h
  rw [find_line hne' hone' h', Option.some.injEq] at hend
  exact (List.append_inj (h.symm.trans h') (by omega)).1

/-- Where the line that begins at a place leads. -/
theorem leads_iff {l u : Bytes} {z : ℤ} (h : content.drop p = l ++ 13 :: 10 :: u) (hl : IsSizeLine l z) :
    Leads content d p q ↔ z ≠ 0 ∧ (q : ℤ) = p + l.length + 2 + z ∧ q ≤ content.length ∧
      d = u.take (toUInt64 z) := by
  constructor
  · rintro ⟨l', u', z', h', hl', hrest⟩
    obtain rfl := line_unique h hl.nonempty hl.oneLine h' hl'.nonempty hl'.oneLine
    have hsize := hl.size
    rw [hl'.size, Except.ok.injEq] at hsize
    rw [h', List.append_cancel_left_eq, List.cons.injEq, List.cons.injEq] at h
    rwa [← hsize, ← h.2.2]
  · exact fun hrest => ⟨l, u, z, h, hl, hrest⟩

theorem Leads.unique {d' : Bytes} {q' : ℕ} (h : Leads content d p q) (h' : Leads content d' p q') :
    d = d' ∧ q = q' := by
  obtain ⟨l, u, z, hdrop, hl, -, hq, -, rfl⟩ := h
  obtain ⟨-, hq', -, rfl⟩ := (leads_iff hdrop hl).mp h'
  exact ⟨rfl, by omega⟩

theorem Adds.unique {a b b' : ℕ × ℕ} (h : Adds content a b) (h' : Adds content a b') : b = b' := by
  obtain ⟨d, hleads, hlen, -⟩ := h
  obtain ⟨d', hleads', hlen', -⟩ := h'
  obtain ⟨rfl, hplace⟩ := hleads.unique hleads'
  exact Prod.ext hplace (hlen.trans hlen'.symm)

/-- A round on the line of a chunk, in signed numbers. -/
theorem chunkStep_of_int {l u : Bytes} {z : ℤ} (hl : IsSizeLine l z) (h : content.drop p = l ++ 13 :: 10 :: u)
    (hlen : content.length < 2 ^ 63) (temp : Bytes) : chunkStep content p temp =
      if z = 0 then .ok (.done .Success temp)
      else if 0 ≤ p + l.length + 2 + z ∧ p + l.length + 2 + z ≤ content.length then
        if temp.length + (u.take (toUInt64 z)).length < 2 ^ 63 then
          .ok (.next (p + l.length + 2 + z).toNat (temp ++ u.take (toUInt64 z)))
        else .ok (.done .Error content)
      else .ok (.done .Fail content) := by
  have hplace := length_of_line h
  rw [chunkStep_of_line hl h]
  simp only [toUInt64_eq_zero_iff hl.isInt]
  by_cases hnonneg : 0 ≤ ((p + l.length + 2 : ℕ) : ℤ) + z
  · have hsum := add_toUInt64_of_nonneg (by omega) hl.isInt hnonneg
    have hnext : (p + l.length + 2 + toUInt64 z) % 2 ^ 64 = ((p : ℤ) + l.length + 2 + z).toNat := by omega
    have hpast : content.length < ((p : ℤ) + l.length + 2 + z).toNat ↔
        ¬ ((0 : ℤ) ≤ p + l.length + 2 + z ∧ (p : ℤ) + l.length + 2 + z ≤ content.length) := by omega
    rw [hnext]
    simp only [hpast, ite_not]
  · have hwrap := add_toUInt64_of_neg (a := p + l.length + 2) hl.isInt (not_le.mp hnonneg)
    rw [if_pos (by omega : content.length < (p + l.length + 2 + toUInt64 z) % 2 ^ 64),
      if_neg (by omega : ¬ ((0 : ℤ) ≤ p + l.length + 2 + z ∧ (p : ℤ) + l.length + 2 + z ≤ content.length))]

/-- The content breaks off behind `p`: in the line that begins there, or in the chunk behind that line. -/
def BreaksOff (content : Bytes) (p : ℕ) : Prop :=
  find content (bytes "\r\n") (p + 1) = none ∨
    ∃ l u z, content.drop p = l ++ 13 :: 10 :: u ∧ IsSizeLine l z ∧ z ≠ 0 ∧ ∀ d q, ¬ Leads content d p q

theorem BreaksOff.not_leads (h : BreaksOff content p) (d : Bytes) (q : ℕ) : ¬ Leads content d p q := by
  obtain hnone | ⟨_, _, _, -, -, -, hno⟩ := h
  · rintro ⟨l, u, z, hdrop, hl, -⟩
    rw [bytes_crlf, find_line hl.nonempty hl.oneLine hdrop] at hnone
    cases hnone
  · exact hno d q

/-- Whether it breaks off, where a line ends. -/
theorem breaksOff_iff {l u : Bytes} (h : content.drop p = l ++ 13 :: 10 :: u) (hne : l ≠ [])
    (hone : search [13, 10] l.tail = none) :
    BreaksOff content p ↔ (∃ z, stoi 16 l = .ok z ∧ z ≠ 0) ∧ ∀ d q, ¬ Leads content d p q := by
  constructor
  · rintro (hnone | ⟨l', u', z, h', hl', hz, hno⟩)
    · rw [bytes_crlf, find_line hne hone h] at hnone
      cases hnone
    · rw [line_unique h hne hone h' hl'.nonempty hl'.oneLine]
      exact ⟨⟨z, hl'.size, hz⟩, hno⟩
  · rintro ⟨⟨z, hsize, hz⟩, hno⟩
    exact .inr ⟨l, u, z, h, ⟨hne, hone, hsize⟩, hz, hno⟩

/-- The line that begins at `p` has the size zero. -/
def LastAt (content : Bytes) (p : ℕ) : Prop := ∃ l u, content.drop p = l ++ 13 :: 10 :: u ∧ IsSizeLine l 0

theorem LastAt.not_leads (h : LastAt content p) (d : Bytes) (q : ℕ) : ¬ Leads content d p q := by
  obtain ⟨l, u, hdrop, hl⟩ := h
  rw [leads_iff hdrop hl]
  exact fun hleads => hleads.1 rfl

theorem LastAt.not_breaksOff (h : LastAt content p) : ¬ BreaksOff content p := by
  obtain ⟨l, u, hdrop, hl⟩ := h
  rw [breaksOff_iff hdrop hl.nonempty hl.oneLine]
  rintro ⟨⟨z, hsize, hz⟩, -⟩
  rw [hl.size, Except.ok.injEq] at hsize
  exact hz hsize.symm

/-- **A round leads to the next place, or ends the loop**: because the content breaks off, because the
last line has come, or for another reason, a string that is too long among them. -/
theorem chunkStep_cases (hlen : content.length < 2 ^ 63) (p : ℕ) (temp : Bytes) :
    (∃ d q, Leads content d p q ∧ temp.length + d.length < 2 ^ 63 ∧
      chunkStep content p temp = .ok (.next q (temp ++ d))) ∨
    (BreaksOff content p ∧ chunkStep content p temp = .ok (.done .Fail content)) ∨
    (LastAt content p ∧ chunkStep content p temp = .ok (.done .Success temp)) ∨
    ((∀ d q, Leads content d p q → 2 ^ 63 ≤ temp.length + d.length) ∧ ¬ BreaksOff content p ∧
      chunkStep content p temp = .ok (.done .Error content)) := by
  cases hfind : find content [13, 10] (p + 1) with
  | none =>
    refine .inr (.inl ⟨.inl ?_, ?_⟩)
    · rw [bytes_crlf, hfind]
    · rw [chunkStep, bytes_crlf, hfind]
  | some p2 =>
    obtain ⟨l, u, h, hne, hone⟩ := exists_line hfind
    rw [breaksOff_iff h hne hone]
    obtain hz | ⟨z, -, hz⟩ := stoi_cases 16 l
    · refine .inr (.inr (.inr ⟨?_, ?_, chunkStep_of_thrown hne hone h hz temp⟩))
      · rintro d q ⟨l', u', z, h', hl', -⟩
        rw [line_unique h hne hone h' hl'.nonempty hl'.oneLine, hl'.size] at hz
        cases hz
      · rintro ⟨⟨z, hsize, -⟩, -⟩
        rw [hsize] at hz
        cases hz
    · have hl : IsSizeLine l z := ⟨hne, hone, hz⟩
      have hstep := chunkStep_of_int hl h hlen temp
      simp only [leads_iff h hl]
      split at hstep
      · next hzero =>
        subst hzero
        exact .inr (.inr (.inl ⟨⟨l, u, h, hl⟩, hstep⟩))
      · next hzero =>
        split at hstep
        · next hin =>
          split at hstep
          · next hfits => exact .inl ⟨_, _, ⟨hzero, by omega, by omega, rfl⟩, hfits, hstep⟩
          · next hlong =>
            refine .inr (.inr (.inr ⟨?_, ?_, hstep⟩))
            · rintro d q ⟨-, -, -, rfl⟩
              exact not_lt.mp hlong
            · rintro ⟨-, hno⟩
              exact hno _ (p + l.length + 2 + z).toNat ⟨hzero, by omega, by omega, rfl⟩
        · next hout => exact .inr (.inl ⟨⟨⟨z, hz, hzero⟩, fun d q hq => hout (by omega)⟩, hstep⟩)

/-- A round on the line of a chunk that leads on. -/
theorem chunkStep_of_leads (h : Leads content d p q) (hlen : content.length < 2 ^ 63) {temp : Bytes}
    (hfits : temp.length + d.length < 2 ^ 63) : chunkStep content p temp = .ok (.next q (temp ++ d)) := by
  obtain ⟨d', q', hleads, -, hstep⟩ | ⟨hbreaks, -⟩ | ⟨hlast, -⟩ | ⟨hlong, -⟩ := chunkStep_cases hlen p temp
  · obtain ⟨rfl, rfl⟩ := hleads.unique h
    exact hstep
  · exact absurd h (hbreaks.not_leads d q)
  · exact absurd h (hlast.not_leads d q)
  · exact absurd hfits (not_lt.mpr (hlong d q h))

/-- A round on the last line. -/
theorem chunkStep_of_lastAt (h : LastAt content p) (hlen : content.length < 2 ^ 63) (temp : Bytes) :
    chunkStep content p temp = .ok (.done .Success temp) := by
  obtain ⟨l, u, hdrop, hl⟩ := h
  rw [chunkStep_of_int hl hdrop hlen, if_pos rfl]

/-! ### Rounds without end -/

/-- **The loop goes on for as many rounds as there are steps to take.** -/
theorem returns_chunkLoop_iff (hlen : content.length < 2 ^ 63) (fuel p : ℕ) (temp : Bytes) :
    (chunkLoop content fuel p temp).Returns ↔ ¬ Walks (Adds content) fuel (p, temp.length) := by
  induction fuel generalizing p temp with
  | zero =>
    refine iff_of_false ?_ (not_not.mpr trivial)
    rintro ⟨_, h⟩
    cases h
  | succ fuel ih =>
    rw [chunkLoop]
    obtain ⟨d, q, hleads, hfits, hstep⟩ | ⟨hbreaks, hstep⟩ | ⟨hlast, hstep⟩ | ⟨hlong, -, hstep⟩ :=
      chunkStep_cases hlen p temp
    · rw [hstep]
      have hadds : Adds content (p, temp.length) (q, (temp ++ d).length) := by
        rw [List.length_append]
        exact ⟨d, hleads, rfl, hfits⟩
      refine (ih q (temp ++ d)).trans (not_congr ⟨fun h => ⟨_, hadds, h⟩, ?_⟩)
      rintro ⟨b, hadds', h⟩
      rwa [hadds.unique hadds']
    · rw [hstep]
      refine iff_of_true (Exec.returns_ok _) ?_
      rintro ⟨b, ⟨d, hleads, -⟩, -⟩
      exact hbreaks.not_leads d b.1 hleads
    · rw [hstep]
      refine iff_of_true (Exec.returns_ok _) ?_
      rintro ⟨b, ⟨d, hleads, -⟩, -⟩
      exact hlast.not_leads d b.1 hleads
    · rw [hstep]
      refine iff_of_true (Exec.returns_ok _) ?_
      rintro ⟨b, ⟨d, hleads, hadd, hfits⟩, -⟩
      exact absurd (hadd ▸ hfits) (not_lt.mpr (hlong d b.1 hleads))

/-- No place is past the end, and a string can hold what is put together. -/
theorem bounded_of_adds {b : ℕ × ℕ} (h : ReflTransGen (Adds content) (0, 0) b) :
    b.1 ≤ content.length ∧ b.2 < 2 ^ 63 := by
  obtain heq | ⟨a, -, d, ⟨l, u, z, -, -, -, -, hle, -⟩, -, hlt⟩ := h.cases_tail
  · rw [heq]
    exact ⟨Nat.zero_le _, by decide⟩
  · exact ⟨hle, hlt⟩

/-- More rounds than there are places and lengths lead round. -/
theorem walks_adds_iff {fuel : ℕ} (hfuel : chunkRounds content ≤ fuel) :
    Walks (Adds content) fuel (0, 0) ↔ Circles (Adds content) (0, 0) := by
  apply walks_iff_circles (Finset.range (content.length + 1) ×ˢ Finset.range (2 ^ 63))
  · intro b hb
    obtain ⟨hle, hlt⟩ := bounded_of_adds hb
    exact Finset.mem_product.mpr ⟨Finset.mem_range_succ_iff.mpr hle, Finset.mem_range.mpr hlt⟩
  · rwa [Finset.card_product, Finset.card_range, Finset.card_range]

/-- A last line of negative size leads back, and adds nothing. -/
theorem LeadsBack.leads (h : LeadsBack content p q) : Leads content [] p q := by
  obtain ⟨l, z, hdrop, hl, hz, hq⟩ := h
  have hplace := length_of_line hdrop
  rw [List.length_nil] at hplace
  exact ⟨l, [], z, hdrop, hl, hz.ne, by omega, by omega, List.take_nil.symm⟩

/-- **What leads on and adds nothing is a last line of negative size.** -/
theorem leads_nil_iff : Leads content [] p q ↔ LeadsBack content p q := by
  refine ⟨?_, LeadsBack.leads⟩
  rintro ⟨l, u, z, hdrop, hl, hz, hq, hle, hd⟩
  have hplace := length_of_line hdrop
  have hsize := (toUInt64_eq_zero_iff hl.isInt).not.mpr hz
  obtain rfl : u = [] := (List.take_eq_nil_iff.mp hd.symm).resolve_left hsize
  rw [List.length_nil] at hplace
  exact ⟨l, z, hdrop, hl, by omega, by omega⟩

/-- Rounds that lead back to where they began are rounds on last lines. -/
theorem circles_adds_iff : Circles (Adds content) (0, 0) ↔ TurnsRound content := by
  have hgrow : ∀ a b, Adds content a b → a.2 ≤ b.2 := by
    rintro a b ⟨d, -, hadd, -⟩
    omega
  rw [circles_iff_level hgrow]
  constructor
  · rintro ⟨⟨p, n⟩, hreach, hround⟩
    refine ⟨p, n, hreach, hround.lift Prod.fst ?_⟩
    rintro a b ⟨⟨d, hleads, hadd, -⟩, heq⟩
    obtain rfl : d = [] := List.eq_nil_of_length_eq_zero (by omega)
    exact leads_nil_iff.mp hleads
  · rintro ⟨p, n, hreach, hround⟩
    refine ⟨(p, n), hreach, hround.lift (fun q => (q, n)) ?_⟩
    intro a b hback
    exact ⟨⟨[], hback.leads, rfl, (bounded_of_adds hreach).2⟩, rfl⟩

/-- The loop ends unless it turns round on last lines. -/
theorem returns_loop_iff (hlen : content.length < 2 ^ 63) :
    (∃ fuel, (chunkLoop content fuel 0 []).Returns) ↔ ¬ TurnsRound content := by
  simp only [returns_chunkLoop_iff hlen, ← circles_adds_iff]
  constructor
  · rintro ⟨fuel, h⟩ hcircles
    exact h (hcircles.walks fuel)
  · intro h
    exact ⟨chunkRounds content, (walks_adds_iff le_rfl).not.mpr h⟩

/-- As many rounds as `isCompletedChunked` is given are enough. -/
theorem returns_iff_not_turnsRound {r : Response} (hlen : r.content_.length < 2 ^ 63) :
    (isCompletedChunked r).Returns ↔ ¬ TurnsRound r.content_ := by
  rw [← circles_adds_iff, ← walks_adds_iff le_rfl]
  refine Iff.trans ?_ (returns_chunkLoop_iff hlen _ _ [])
  constructor
  · rintro ⟨⟨rst, r'⟩, h⟩
    obtain ⟨out, hloop, -⟩ := isCompletedChunked_eq_ok h
    exact ⟨_, hloop⟩
  · intro h
    exact h.bind fun _ _ => Exec.returns_ok _

/-- **The loop of `isCompletedChunked` ends unless the chunks lead to a last line of negative size**, from
which such lines lead back to it. -/
theorem isCompletedChunked_ends_iff (r : Response) (hlen : r.content_.length < 2 ^ 63) :
    ((∃ fuel, (chunkLoop r.content_ fuel 0 []).Returns) ↔ ¬ TurnsRound r.content_) ∧
      ((isCompletedChunked r).Returns ↔ ¬ TurnsRound r.content_) :=
  ⟨returns_loop_iff hlen, returns_iff_not_turnsRound hlen⟩

/-- A line that says that four bytes less than none follow; it is as long. -/
def sampleCircle : Bytes := bytes "-4\r\n"

theorem turnsRound_sampleCircle : TurnsRound sampleCircle :=
  ⟨0, 0, .refl, .single ⟨bytes "-4", -4, rfl, ⟨by decide, by decide, rfl⟩, by decide, by decide⟩⟩

/-- Two bytes, and a line that leads back before them, so that they are added again. -/
def sampleAgain : Bytes := bytes "2\r\nab-9\r\n"

/-- There is one last line of negative size, and it leads back to a line that is not the last. -/
theorem not_turnsRound_sampleAgain : ¬ TurnsRound sampleAgain := by
  have hback (p q : ℕ) (h : LeadsBack sampleAgain p q) : p = 5 ∧ q = 0 := by
    obtain ⟨l, z, hdrop, hl, hz, hq⟩ := h
    have hplace : p + l.length + 2 + 0 = 9 := length_of_line hdrop
    have hline : l = (sampleAgain.drop p).dropLast.dropLast := by
      rw [hdrop, List.dropLast_append_of_ne_nil (by simp)]
      simp
    have hsizes : ∀ p < 8, p ≠ 5 →
        (stoi 16 (sampleAgain.drop p).dropLast.dropLast).toOption.all (fun z => decide (0 ≤ z)) = true := by decide
    have hback : stoi 16 (sampleAgain.drop 5).dropLast.dropLast = .ok (-9) := by decide
    have hsize := hl.size
    rw [hline] at hsize
    by_cases hp : p = 5
    · rw [hp, hback, Except.ok.injEq] at hsize
      have hlength : sampleAgain.length = 9 := rfl
      omega
    · have hnonneg := hsizes p (by omega) hp
      rw [hsize] at hnonneg
      simp only [Except.toOption, Option.all_some, decide_eq_true_eq] at hnonneg
      omega
  rintro ⟨p, n, -, hround⟩
  obtain ⟨c, hpc, hcp⟩ := TransGen.head'_iff.mp hround
  obtain ⟨rfl, rfl⟩ := hback p c hpc
  obtain heq | ⟨c, hc, -⟩ := hcp.cases_head
  · cases heq
  · cases (hback 0 c hc).1

/-- The loop never ends on the one, and it ends on the other, where it comes back to a place too. -/
theorem isCompletedChunked_ends_iff_sample :
    ¬ (isCompletedChunked { new with content_ := sampleCircle }).Returns ∧
      (isCompletedChunked { new with content_ := sampleAgain }).Returns := by
  constructor
  · rw [(isCompletedChunked_ends_iff { new with content_ := sampleCircle } (by decide)).2, not_not]
    exact turnsRound_sampleCircle
  · rw [(isCompletedChunked_ends_iff { new with content_ := sampleAgain } (by decide)).2]
    exact not_turnsRound_sampleAgain

/-- On this line the loop never ends. -/
theorem not_isCompletedChunked_ends :
    (∀ fuel, chunkLoop sampleCircle fuel 0 [] = .error .loops) ∧
      isCompletedChunked { new with content_ := sampleCircle } = .error .loops := by
  have hstep : chunkStep sampleCircle 0 [] = .ok (.next 0 []) := rfl
  have hloop : ∀ fuel, chunkLoop sampleCircle fuel 0 [] = .error .loops := by
    intro fuel
    induction fuel with
    | zero => rfl
    | succ fuel ih =>
      rw [chunkLoop, hstep]
      exact ih
  exact ⟨hloop, by rw [isCompletedChunked, hloop]; rfl⟩

/-! ### Contents on which the loop ends -/

/-- **On a content that does not end with CRLF the loop ends.** -/
theorem returns_of_not_suffix {r : Response} (hlen : r.content_.length < 2 ^ 63)
    (hcrlf : ¬ [13, 10] <:+ r.content_) : (isCompletedChunked r).Returns := by
  rw [returns_iff_not_turnsRound hlen]
  rintro ⟨p, n, -, hround⟩
  obtain ⟨q, ⟨l, z, hdrop, -⟩, -⟩ := TransGen.head'_iff.mp hround
  exact hcrlf ((hdrop ▸ List.suffix_append l [13, 10]).trans (List.drop_suffix p r.content_))

/-- The places that are reached are where chunks end, when their sizes are not negative. -/
theorem exists_chunks_of_adds (hsizes : NonnegSizes content) {b : ℕ × ℕ}
    (h : ReflTransGen (Adds content) (0, 0) b) : ∃ ds w, Chunks ds w ∧ w <+: content ∧ w.length = b.1 := by
  induction h with
  | refl => exact ⟨[], [], .nil, List.nil_prefix, rfl⟩
  | @tail a b _ hab ih =>
    obtain ⟨ds, w, hchunks, ⟨rest, rfl⟩, hw⟩ := ih
    obtain ⟨d, ⟨l, u, z, hl, hline, hz, hq, hle, -⟩, -⟩ := hab
    rw [← hw, List.drop_left] at hl
    subst hl
    obtain ⟨n, rfl⟩ := Int.eq_ofNat_of_zero_le (hsizes ds w l z hchunks hline ⟨u, by simp⟩)
    have hn : n ≤ u.length := by
      simp only [List.length_append, List.length_cons] at hle
      omega
    refine ⟨_, _, hchunks.snoc_take hline (by omega) hn, ⟨u.drop n, by simp⟩, ?_⟩
    simp only [List.length_append, List.length_cons, List.length_take_of_le hn]
    omega

/-- **When no size is negative the loop ends.** -/
theorem returns_of_nonnegSizes {r : Response} (hlen : r.content_.length < 2 ^ 63)
    (hsizes : NonnegSizes r.content_) : (isCompletedChunked r).Returns := by
  rw [returns_iff_not_turnsRound hlen, ← circles_adds_iff]
  apply not_circles_of_lt Prod.fst
  rintro a b ha ⟨d, ⟨l, u, z, hl, hline, -, hq, -⟩, -⟩
  obtain ⟨ds, w, hchunks, ⟨rest, hrest⟩, hw⟩ := exists_chunks_of_adds hsizes ha
  rw [← hrest, ← hw, List.drop_left] at hl
  have hz : 0 ≤ z := hsizes ds w l z hchunks hline ⟨u, by rw [← hrest, hl]; simp⟩
  omega

/-! ### Contents that are not whole -/

/-- Chunks follow each other up to a place behind which the content breaks off. -/
def Unfinished (content : Bytes) : Prop := ∃ b, ReflTransGen (Adds content) (0, 0) b ∧ BreaksOff content b.1

/-- What is said to be not whole breaks off at a place that is reached. -/
theorem exists_breaksOff (hlen : content.length < 2 ^ 63) {fuel : ℕ} {temp out : Bytes}
    (h : chunkLoop content fuel p temp = .ok (.Fail, out)) :
    ∃ b, ReflTransGen (Adds content) (p, temp.length) b ∧ BreaksOff content b.1 := by
  induction fuel generalizing p temp with
  | zero => cases h
  | succ fuel ih =>
    rw [chunkLoop] at h
    obtain ⟨d, q, hleads, hfits, hstep⟩ | ⟨hbreaks, -⟩ | ⟨-, hstep⟩ | ⟨-, -, hstep⟩ := chunkStep_cases hlen p temp
    · rw [hstep] at h
      obtain ⟨b, hreach, hbreaks⟩ := ih h
      rw [List.length_append] at hreach
      exact ⟨b, .head ⟨d, hleads, rfl, hfits⟩ hreach, hbreaks⟩
    · exact ⟨_, .refl, hbreaks⟩
    · rw [hstep] at h
      cases h
    · rw [hstep] at h
      cases h

/-- The loop comes to each place that can be reached, if it ends, and ends where the content breaks off. -/
theorem chunkLoop_of_breaksOff (hlen : content.length < 2 ^ 63) {a b : ℕ × ℕ}
    (h : ReflTransGen (Adds content) a b) (hb : BreaksOff content b.1) {fuel : ℕ} {temp : Bytes}
    (htemp : temp.length = a.2) (hreturns : (chunkLoop content fuel a.1 temp).Returns) :
    chunkLoop content fuel a.1 temp = .ok (.Fail, content) := by
  induction h using ReflTransGen.head_induction_on generalizing fuel temp with
  | refl =>
    cases fuel with
    | zero => exact absurd hreturns.choose_spec (by simp [chunkLoop])
    | succ fuel =>
      rw [chunkLoop]
      obtain ⟨d, q, hleads, -⟩ | ⟨-, hstep⟩ | ⟨hlast, -⟩ | ⟨-, hno, -⟩ := chunkStep_cases hlen b.1 temp
      · exact absurd hleads (hb.not_leads d q)
      · rw [hstep]
        rfl
      · exact absurd hb hlast.not_breaksOff
      · exact absurd hb hno
  | head hac _ ih =>
    obtain ⟨d, hleads, hadd, hfits⟩ := hac
    rw [← htemp] at hadd
    cases fuel with
    | zero => exact absurd hreturns.choose_spec (by simp [chunkLoop])
    | succ fuel =>
      rw [chunkLoop, chunkStep_of_leads hleads hlen (hadd ▸ hfits)] at hreturns ⊢
      exact ih (by rw [List.length_append, hadd]) hreturns

/-- **Which contents are waited for**: those that break off behind some chunks. They are left as they are. -/
theorem isCompletedChunked_eq_fail_iff {r : Response} (hlen : r.content_.length < 2 ^ 63) :
    isCompletedChunked r = .ok (.Fail, r) ↔ Unfinished r.content_ := by
  constructor
  · intro h
    obtain ⟨content, hloop, -⟩ := isCompletedChunked_eq_ok h
    exact exists_breaksOff hlen hloop
  · rintro ⟨b, hreach, hbreaks⟩
    have hstuck : ∀ c, ¬ Adds r.content_ b c := by
      rintro c ⟨d, hleads, -⟩
      exact hbreaks.not_leads d c.1 hleads
    have hreturns : (isCompletedChunked r).Returns := by
      rw [returns_iff_not_turnsRound hlen, ← circles_adds_iff]
      exact not_circles_of_stuck (fun _ _ _ h h' => h.unique h') hreach hstuck
    obtain ⟨⟨rst, r'⟩, hr'⟩ := hreturns
    obtain ⟨content, hloop, -⟩ := isCompletedChunked_eq_ok hr'
    rw [isCompletedChunked, chunkLoop_of_breaksOff (a := (0, 0)) hlen hreach hbreaks rfl ⟨_, hloop⟩]
    rfl

/-! ### More bytes -/

/-- A chunk leads from one place to the other. -/
def LeadsTo (content : Bytes) (p q : ℕ) : Prop := ∃ d, Leads content d p q

/-- A chunk is no longer than what is left of the content. -/
theorem Leads.length_le (h : Leads content d p q) : d.length ≤ content.length - p := by
  obtain ⟨l, u, z, hdrop, -, -, -, -, rfl⟩ := h
  have hplace := length_of_line hdrop
  have htake := List.length_take_le' (toUInt64 z) u
  omega

/-- With more bytes behind the content, a chunk leads to the same place. -/
theorem Leads.append (h : Leads content d p q) (more : Bytes) : LeadsTo (content ++ more) p q := by
  obtain ⟨l, u, z, hdrop, hl, hz, hq, hle, -⟩ := h
  refine ⟨_, l, u ++ more, z, ?_, hl, hz, hq, ?_, rfl⟩
  · rw [List.drop_append_of_le_length (le_length_of_drop hdrop (by simp)), hdrop]
    simp
  · rw [List.length_append]
    omega

theorem LastAt.append (h : LastAt content p) (more : Bytes) : LastAt (content ++ more) p := by
  obtain ⟨l, u, hdrop, hl⟩ := h
  refine ⟨l, u ++ more, ?_, hl⟩
  rw [List.drop_append_of_le_length (le_length_of_drop hdrop (by simp)), hdrop]
  simp

/-- A loop that says a content is whole has come to the last line. -/
theorem exists_lastAt (hlen : content.length < 2 ^ 63) {fuel : ℕ} {temp out : Bytes}
    (h : chunkLoop content fuel p temp = .ok (.Success, out)) :
    ∃ q, ReflTransGen (LeadsTo content) p q ∧ LastAt content q := by
  induction fuel generalizing p temp with
  | zero => cases h
  | succ fuel ih =>
    rw [chunkLoop] at h
    obtain ⟨d, q, hleads, -, hstep⟩ | ⟨-, hstep⟩ | ⟨hlast, -⟩ | ⟨-, -, hstep⟩ := chunkStep_cases hlen p temp
    · rw [hstep] at h
      obtain ⟨q', hreach, hlast⟩ := ih h
      exact ⟨q', .head ⟨d, hleads⟩ hreach, hlast⟩
    · rw [hstep] at h
      cases h
    · exact ⟨p, .refl, hlast⟩
    · rw [hstep] at h
      cases h

/-- It has come back to no place. -/
theorem not_circles_of_success (hlen : content.length < 2 ^ 63) {fuel : ℕ} {temp out : Bytes}
    (h : chunkLoop content fuel p temp = .ok (.Success, out)) : ¬ Circles (LeadsTo content) p := by
  obtain ⟨q, hreach, hlast⟩ := exists_lastAt hlen h
  refine not_circles_of_stuck ?_ hreach ?_
  · rintro a b c ⟨d, hb⟩ ⟨d', hc⟩
    exact (hb.unique hc).2
  · rintro c ⟨d, hleads⟩
    exact hlast.not_leads d c hleads

/-- A loop that says a content is whole says so of a longer content, and after as many rounds. What it puts
together there is no longer than what is left of the content at all the places that are still ahead. -/
theorem chunkLoop_append {more : Bytes} (hlen : (content ++ more).length < 2 ^ 63) {fuel fuel' : ℕ}
    {temp temp' out : Bytes} (hle : fuel ≤ fuel') (h : chunkLoop content fuel p temp = .ok (.Success, out))
    (S : Finset ℕ) (hS : ∀ q, ReflTransGen (LeadsTo content) p q → q ∈ S)
    (hfits : temp'.length + ∑ q ∈ S, ((content ++ more).length - q) < 2 ^ 63) :
    ∃ out', chunkLoop (content ++ more) fuel' p temp' = .ok (.Success, out') := by
  have hshort : content.length < 2 ^ 63 := by
    rw [List.length_append] at hlen
    omega
  induction fuel generalizing fuel' p temp temp' S with
  | zero => cases h
  | succ fuel ih =>
    obtain ⟨fuel', rfl⟩ := Nat.exists_eq_add_of_le' hle
    have hno := not_circles_of_success hshort h
    rw [chunkLoop] at h
    obtain ⟨d, q, hleads, -, hstep⟩ | ⟨-, hstep⟩ | ⟨hlast, -⟩ | ⟨-, -, hstep⟩ := chunkStep_cases hshort p temp
    · rw [hstep] at h
      obtain ⟨d', hleads'⟩ := hleads.append more
      -- The place that is left is not come back to, and makes room for its chunk.
      have herase : ∀ c, ReflTransGen (LeadsTo content) q c → c ∈ S.erase p := by
        intro c hc
        refine Finset.mem_erase.mpr ⟨?_, hS c (hc.head ⟨d, hleads⟩)⟩
        rintro rfl
        exact hno ⟨c, .refl, TransGen.head'_iff.mpr ⟨q, ⟨d, hleads⟩, hc⟩⟩
      have hsum := Finset.add_sum_erase S (fun q => (content ++ more).length - q) (hS p .refl)
      have hd := hleads'.length_le
      rw [← Nat.add_assoc, chunkLoop, chunkStep_of_leads hleads' hlen (by omega)]
      exact ih (by omega) h (S.erase p) herase (by rw [List.length_append]; omega)
    · rw [hstep] at h
      cases h
    · rw [← Nat.add_assoc, chunkLoop, chunkStep_of_lastAt (hlast.append more) hlen]
      exact ⟨temp', rfl⟩
    · rw [hstep] at h
      cases h

/-- What is left of a content at all its places, in a string of less than `2³²` bytes. -/
theorem sum_left_lt {n m : ℕ} (hle : n ≤ m) (hlt : m < 2 ^ 32) : ∑ q ∈ Finset.range (n + 1), (m - q) < 2 ^ 63 := by
  have hsub : ∑ q ∈ Finset.range (n + 1), (m - q) ≤ ∑ q ∈ Finset.range (m + 1), (m - q) :=
    Finset.sum_le_sum_of_subset (Finset.range_mono (by omega))
  have hreflect : ∑ q ∈ Finset.range (m + 1), (m - q) = ∑ q ∈ Finset.range (m + 1), q :=
    Finset.sum_range_reflect id (m + 1)
  have htwice := Finset.sum_range_id_mul_two (m + 1)
  have hmul : (m + 1) * (m + 1 - 1) ≤ 2 ^ 32 * (2 ^ 32 - 1) := Nat.mul_le_mul (by omega) (by omega)
  omega

/-- **A content that is whole stays whole** when more bytes come. -/
theorem isCompletedChunked_append {r r' : Response} (h : isCompletedChunked r = .ok (.Success, r'))
    {more : Bytes} (hlen : (r.content_ ++ more).length < 2 ^ 32) :
    ∃ content, isCompletedChunked { r with content_ := r.content_ ++ more } =
      .ok (.Success, { r with content_ := content }) := by
  obtain ⟨_, hloop, -⟩ := isCompletedChunked_eq_ok h
  have hle : r.content_.length ≤ (r.content_ ++ more).length := (List.prefix_append _ _).length_le
  have hrounds : chunkRounds r.content_ ≤ chunkRounds (r.content_ ++ more) :=
    Nat.mul_le_mul_right _ (Nat.succ_le_succ hle)
  have hplaces : ∀ q, ReflTransGen (LeadsTo r.content_) 0 q → q ∈ Finset.range (r.content_.length + 1) := by
    intro q hq
    rw [Finset.mem_range_succ_iff]
    obtain rfl | ⟨p, -, d, l, u, z, -, -, -, -, hend, -⟩ := hq.cases_tail
    · exact Nat.zero_le _
    · exact hend
  have hfits : ([] : Bytes).length + ∑ q ∈ Finset.range (r.content_.length + 1), ((r.content_ ++ more).length - q) <
      2 ^ 63 := by
    rw [List.length_nil, Nat.zero_add]
    exact sum_left_lt hle hlen
  obtain ⟨content, hloop'⟩ := chunkLoop_append (hlen.trans (by decide)) hrounds hloop _ hplaces hfits
  refine ⟨content, ?_⟩
  rw [isCompletedChunked, hloop']
  rfl

/-- **A whole response, and more bytes behind it**: a chunked one is whole still, and one with
a length is not. -/
theorem unpackAndCompleted_append {r₀ r : Response} {data more : Bytes}
    (h : unpackAndCompleted r₀ data = .ok (.Success, r)) (hmore : more ≠ [])
    (hroom : (data ++ more).length < 2 ^ 32) :
    ∃ r', r'.contentLength = r.contentLength ∧ unpackAndCompleted r₀ (data ++ more) =
      .ok (if r.contentLength = none then .Success else .Fail, r') := by
  obtain ⟨m, hm, ⟨value, z, hvalue, hz, hlen, rfl⟩ | ⟨hnone, hchunked, hwhole⟩⟩ :=
    unpackAndCompleted_success h
  · refine ⟨{ r with content_ := r.content_ ++ more }, rfl, ?_⟩
    have hlong : toUInt64 z ≠ (r.content_ ++ more).length := by
      have := List.length_pos_of_ne_nil hmore
      rw [hlen, List.length_append]
      omega
    have hvalue' : Message.contentLength { r with content_ := r.content_ ++ more } = some value := hvalue
    rw [unpackAndCompleted, unpack, Message.unpack_append hm more, if_neg (by simp [hvalue])]
    simp only [Exec.ok_bind, if_true, hvalue', hz, if_neg hlong, Exec.catchAll_ok]
  · have hcontent : (m.content_ ++ more).length < 2 ^ 32 := by
      have := Message.length_content_le hm
      rw [List.length_append] at hroom ⊢
      omega
    obtain ⟨content, hwhole'⟩ := isCompletedChunked_append hwhole hcontent
    obtain ⟨whole, -, rfl⟩ := isCompletedChunked_eq_ok hwhole
    have hnone' : Message.contentLength { m with content_ := m.content_ ++ more } = none := hnone
    have hnone'' : Message.contentLength { m with content_ := whole } = none := hnone
    refine ⟨{ m with content_ := content }, rfl, ?_⟩
    rw [unpackAndCompleted, unpack, Message.unpack_append hm more, if_pos hnone'']
    simp only [Exec.ok_bind, if_true, hnone', hchunked, hwhole']

end UvCpp.Http.Response
