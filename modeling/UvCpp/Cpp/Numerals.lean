import UvCpp.Cpp.Strings
import Mathlib.Data.Nat.Digits.Lemmas

/-!
# Numerals

`std::to_string` of an `int`, and `std::stoi`, which reads through `strtol`: white
space, a sign, in base 16 an optional `0x`, then digits for as long as there are
digits. It throws when there is no digit or the number is not an `int`; what
follows the digits is ignored.

`IsNumeral.stoi_append` says what `stoi` reads at the front of a longer string, for any
digits that denote a number; `stoi_intToStr` that it undoes `to_string`.
-/

namespace UvCpp.Cpp

/-! ### Writing -/

/-- The digit `d` of a base up to 36, in lower case. -/
def digitByte (d : ℕ) : UInt8 := UInt8.ofNat (if d < 10 then 48 + d else 87 + d)

/-- The numeral of `n`. -/
def numeral (base n : ℕ) : Bytes :=
  if n = 0 then [digitByte 0] else (Nat.digits base n).reverse.map digitByte

/-- `std::to_string` of an `int`. -/
def intToStr (z : ℤ) : Bytes :=
  if z < 0 then 45 :: numeral 10 z.natAbs else numeral 10 z.natAbs

/-! ### Reading -/

/-- `isspace`. -/
def isSpace (c : UInt8) : Bool := c = 32 || (9 ≤ c && c ≤ 13)

/-- The digit a byte stands for, if it is one in the base. -/
def digitVal (base : ℕ) (c : UInt8) : Option ℕ :=
  (if 48 ≤ c ∧ c ≤ 57 then some (c.toNat - 48)
    else if 97 ≤ c ∧ c ≤ 122 then some (c.toNat - 87)
    else if 65 ≤ c ∧ c ≤ 90 then some (c.toNat - 55)
    else none).filter (· < base)

/-- The number the digits at the front of a string denote, after `acc`. -/
def readDigits (base acc : ℕ) : Bytes → ℕ
  | [] => acc
  | c :: s =>
    match digitVal base c with
    | some d => readDigits base (acc * base + d) s
    | none => acc

/-- Whether a string begins with a digit. -/
def startsWithDigit (base : ℕ) : Bytes → Bool
  | [] => false
  | c :: _ => (digitVal base c).isSome

/-- In base 16, `strtol` passes over `0x` if a digit follows it. -/
def dropHexPrefix (base : ℕ) : Bytes → Bytes
  | 48 :: x :: s =>
    if base = 16 ∧ (x = 120 ∨ x = 88) ∧ startsWithDigit base s then s else 48 :: x :: s
  | s => s

/-- The sign at the front of a string, and the rest. -/
def readSign : Bytes → ℤ × Bytes
  | 45 :: s => (-1, s)
  | 43 :: s => (1, s)
  | s => (1, s)

/-- `strtol`: `none` when there is no number. -/
def strtol (base : ℕ) (s : Bytes) : Option ℤ :=
  let (sign, s) := readSign (s.dropWhile isSpace)
  let s := dropHexPrefix base s
  if startsWithDigit base s then some (sign * readDigits base 0 s) else none

/-- `std::stoi(s, nullptr, base)`. -/
def stoi (base : ℕ) (s : Bytes) : Exec ℤ :=
  match strtol base s with
  | none => .error .thrown
  | some z => if IsInt z then .ok z else .error .thrown

/-- `stoi` throws, or what it reads is an `int`. -/
theorem stoi_cases (base : ℕ) (s : Bytes) :
    stoi base s = .error .thrown ∨ ∃ z, IsInt z ∧ stoi base s = .ok z := by
  unfold stoi
  split
  · exact .inl rfl
  · next z _ =>
    split
    · next hz => exact .inr ⟨z, hz, rfl⟩
    · exact .inl rfl

/-! ### Digits -/

/-- A digit's byte is none of the bytes a number may begin with otherwise. -/
theorem digit_plain {base : ℕ} (hb : base ≤ 16) {c : UInt8} (h : (digitVal base c).isSome) :
    isSpace c = false ∧ c ≠ 45 ∧ c ≠ 43 ∧ c ≠ 120 ∧ c ≠ 88 := by
  obtain ⟨d, hd⟩ := Option.isSome_iff_exists.mp h
  rw [digitVal, Option.filter_eq_some_iff] at hd
  obtain ⟨hd, hlt⟩ := hd
  have hlt : d < base := by simpa using hlt
  have hrange : 48 ≤ c.toNat ∧ c.toNat ≤ 57 ∨ 97 ≤ c.toNat ∧ c.toNat ≤ 102 ∨
      65 ≤ c.toNat ∧ c.toNat ≤ 70 := by
    simp only [UInt8.le_iff_toNat_le, UInt8.toNat_ofNat] at hd
    split_ifs at hd <;> simp only [Option.some.injEq] at hd <;> omega
  have hne (x : UInt8) (hx : ¬ (48 ≤ x.toNat ∧ x.toNat ≤ 57 ∨ 97 ≤ x.toNat ∧ x.toNat ≤ 102 ∨
      65 ≤ x.toNat ∧ x.toNat ≤ 70)) : c ≠ x := by
    rintro rfl
    exact hx hrange
  refine ⟨?_, hne 45 (by decide), hne 43 (by decide), hne 120 (by decide), hne 88 (by decide)⟩
  simp only [isSpace, Bool.or_eq_false_iff, decide_eq_false_iff_not, Bool.and_eq_false_iff,
    UInt8.le_iff_toNat_le, UInt8.toNat_ofNat]
  exact ⟨hne 32 (by decide), by omega⟩

/-- A numeral of a number: digits that denote it, leading zeros allowed. -/
structure IsNumeral (base : ℕ) (ds : Bytes) (n : ℕ) : Prop where
  /-- There is a digit. -/
  nonempty : ds ≠ []
  /-- There are only digits. -/
  digits : ∀ c ∈ ds, (digitVal base c).isSome
  /-- They denote the number. -/
  value : readDigits base 0 ds = n

theorem digitVal_digitByte {base d : ℕ} (hb : base ≤ 16) (hd : d < base) :
    digitVal base (digitByte d) = some d := by
  have h16 : d < 16 := by omega
  unfold digitVal
  rw [Option.filter_eq_some_iff]
  refine ⟨?_, by simpa using hd⟩
  clear hd
  interval_cases d <;> decide

theorem readDigits_map {base : ℕ} (hb : base ≤ 16) {ds : List ℕ} (hds : ∀ d ∈ ds, d < base)
    (acc : ℕ) :
    readDigits base acc (ds.map digitByte) = ds.foldl (fun a d => a * base + d) acc := by
  induction ds generalizing acc with
  | nil => rfl
  | cons d ds ih =>
    rw [List.map_cons, readDigits, digitVal_digitByte hb (hds d List.mem_cons_self), List.foldl_cons]
    exact ih (fun e he => hds e (List.mem_cons_of_mem d he)) _

theorem foldl_reverse_digits (base n : ℕ) :
    (Nat.digits base n).reverse.foldl (fun a d => a * base + d) 0 = n := by
  have h := Nat.ofDigits_eq_foldr base (Nat.digits base n)
  rw [Nat.ofDigits_digits] at h
  conv_rhs => rw [h]
  rw [List.foldl_reverse]
  congr 1
  funext x y
  simp only [Nat.cast_id]
  ring

/-- The digits of a numeral, most significant first. -/
theorem numeral_eq_map {base : ℕ} (hb : 1 < base) (n : ℕ) : ∃ ds : List ℕ, ds ≠ [] ∧
    numeral base n = ds.map digitByte ∧ (∀ d ∈ ds, d < base) ∧
      ds.foldl (fun a d => a * base + d) 0 = n := by
  unfold numeral
  split
  · next h =>
    subst h
    exact ⟨[0], by simp, rfl, by simpa using Nat.zero_lt_of_lt hb, by simp⟩
  · next h =>
    refine ⟨(Nat.digits base n).reverse, ?_, rfl, fun d hd => ?_, foldl_reverse_digits base n⟩
    · simpa using Nat.digits_ne_nil_iff_ne_zero.mpr h
    · exact Nat.digits_lt_base hb (List.mem_reverse.mp hd)

/-- The numeral that is written is a numeral. -/
theorem isNumeral_numeral {base : ℕ} (hb1 : 1 < base) (hb : base ≤ 16) (n : ℕ) :
    IsNumeral base (numeral base n) n := by
  obtain ⟨ds, hne, heq, hlt, hval⟩ := numeral_eq_map hb1 n
  rw [heq]
  refine ⟨by simpa using hne, ?_, by rw [readDigits_map hb hlt, hval]⟩
  intro c hc
  obtain ⟨d, hd, rfl⟩ := List.mem_map.mp hc
  rw [digitVal_digitByte hb (hlt d hd)]
  rfl

/-- A numeral's bytes are digits. -/
theorem mem_numeral {base n : ℕ} (hb : 1 < base) {c : UInt8} (h : c ∈ numeral base n) :
    ∃ d < base, c = digitByte d := by
  obtain ⟨ds, -, heq, hlt, -⟩ := numeral_eq_map hb n
  rw [heq, List.mem_map] at h
  obtain ⟨d, hd, rfl⟩ := h
  exact ⟨d, hlt d hd, rfl⟩

theorem numeral_ne_nil {base : ℕ} (hb : 1 < base) (n : ℕ) : numeral base n ≠ [] := by
  obtain ⟨ds, hne, heq, -, -⟩ := numeral_eq_map hb n
  rw [heq]
  simpa using hne

/-! ### Reading what was written -/

/-- Digits, then something that is not a digit, denote what the digits denote. -/
theorem readDigits_append {base : ℕ} {ds s : Bytes} (hds : ∀ c ∈ ds, (digitVal base c).isSome)
    (hs : startsWithDigit base s = false) (acc : ℕ) :
    readDigits base acc (ds ++ s) = readDigits base acc ds := by
  induction ds generalizing acc with
  | nil =>
    cases s with
    | nil => rfl
    | cons c s =>
      simp only [startsWithDigit, Option.isSome_eq_false_iff, Option.isNone_iff_eq_none] at hs
      simp [readDigits, hs]
  | cons c ds ih =>
    obtain ⟨d, hd⟩ := Option.isSome_iff_exists.mp (hds c List.mem_cons_self)
    rw [List.cons_append, readDigits, readDigits, hd]
    exact ih (fun e he => hds e (List.mem_cons_of_mem c he)) _

theorem readSign_of_ne {c : UInt8} {s : Bytes} (h1 : c ≠ 45) (h2 : c ≠ 43) :
    readSign (c :: s) = (1, c :: s) := by
  unfold readSign
  split <;> simp_all

theorem dropHexPrefix_of_ne {base : ℕ} {c x : UInt8} {s : Bytes} (h1 : x ≠ 120) (h2 : x ≠ 88) :
    dropHexPrefix base (c :: x :: s) = c :: x :: s := by
  unfold dropHexPrefix
  split <;> simp_all

/-- Nothing is dropped from digits followed by something that is not `x`. -/
theorem dropHexPrefix_append {base : ℕ} (hb : base ≤ 16) {ds s : Bytes} (hne : ds ≠ [])
    (hds : ∀ c ∈ ds, (digitVal base c).isSome) (hs : s.head? ≠ some 120 ∧ s.head? ≠ some 88) :
    dropHexPrefix base (ds ++ s) = ds ++ s := by
  match ds with
  | [] => exact absurd rfl hne
  | [d] =>
    cases s with
    | nil => unfold dropHexPrefix; split <;> simp_all
    | cons x t => exact dropHexPrefix_of_ne (by simpa using hs.1) (by simpa using hs.2)
  | d :: e :: ds =>
    obtain ⟨-, -, -, h1, h2⟩ := digit_plain hb (hds e (by simp))
    exact dropHexPrefix_of_ne h1 h2

/-- After the sign, `strtol` reads a numeral. -/
theorem IsNumeral.read {base n : ℕ} (hb : base ≤ 16) {ds s : Bytes} (h : IsNumeral base ds n)
    (hs : startsWithDigit base s = false) (hx : s.head? ≠ some 120 ∧ s.head? ≠ some 88) :
    startsWithDigit base (dropHexPrefix base (ds ++ s)) = true ∧
      readDigits base 0 (dropHexPrefix base (ds ++ s)) = n := by
  rw [dropHexPrefix_append hb h.nonempty h.digits hx, readDigits_append h.digits hs, h.value]
  refine ⟨?_, rfl⟩
  cases ds with
  | nil => exact absurd rfl h.nonempty
  | cons c ds => exact h.digits c List.mem_cons_self

/-- What `stoi` reads at the front of a string that begins with white space and a numeral. -/
theorem IsNumeral.stoi_append {base n : ℕ} (hb : base ≤ 16) {sp ds s : Bytes}
    (hsp : ∀ c ∈ sp, isSpace c) (h : IsNumeral base ds n) (hs : startsWithDigit base s = false)
    (hx : s.head? ≠ some 120 ∧ s.head? ≠ some 88) :
    stoi base (sp ++ (ds ++ s)) = if n < 2 ^ 31 then .ok (n : ℤ) else .error .thrown := by
  obtain ⟨h1, h2⟩ := h.read hb hs hx
  obtain ⟨c, t, rfl⟩ := List.exists_cons_of_ne_nil h.nonempty
  obtain ⟨hspace, hm, hp, -, -⟩ := digit_plain hb (h.digits c List.mem_cons_self)
  have hl : strtol base (sp ++ (c :: t ++ s)) = some (n : ℤ) := by
    rw [strtol, List.dropWhile_append_of_pos hsp, List.cons_append,
      List.dropWhile_cons_of_neg (by simp [hspace]), readSign_of_ne hm hp, ← List.cons_append]
    simp only [h1, h2, if_true, one_mul]
  rw [stoi, hl]
  have : IsInt (n : ℤ) ↔ n < 2 ^ 31 := by unfold IsInt; omega
  simp only [this]

/-- What `stoi` makes of a numeral. -/
theorem IsNumeral.stoi_eq_ite {base n : ℕ} (hb : base ≤ 16) {ds : Bytes} (h : IsNumeral base ds n) :
    stoi base ds = if n < 2 ^ 31 then .ok (n : ℤ) else .error .thrown := by
  have hsp : ∀ c ∈ ([] : Bytes), isSpace c := by simp
  have hread := h.stoi_append hb hsp (s := []) rfl (by simp)
  rwa [List.append_nil, List.nil_append] at hread

/-- What `stoi` reads of a numeral. -/
theorem IsNumeral.stoi_eq {base n : ℕ} (hb : base ≤ 16) {ds : Bytes} (h : IsNumeral base ds n)
    (hn : n < 2 ^ 31) : stoi base ds = .ok (n : ℤ) := by
  rw [h.stoi_eq_ite hb, if_pos hn]

/-- `stoi` reads the numeral that is written. -/
theorem stoi_numeral {base : ℕ} (hb1 : 1 < base) (hb : base ≤ 16) {n : ℕ} (hn : n < 2 ^ 31) :
    stoi base (numeral base n) = .ok (n : ℤ) := (isNumeral_numeral hb1 hb n).stoi_eq hb hn

/-- `stoi` undoes `to_string`. -/
theorem stoi_intToStr {z : ℤ} (hz : IsInt z) : stoi 10 (intToStr z) = .ok z := by
  unfold intToStr
  split
  · next hneg =>
    obtain ⟨h1, h2⟩ := (isNumeral_numeral (by decide : 1 < 10) (by decide) z.natAbs).read
      (by decide) (s := []) rfl (by simp)
    rw [List.append_nil] at h1 h2
    have hl : strtol 10 (45 :: numeral 10 z.natAbs) = some z := by
      unfold strtol
      rw [List.dropWhile_cons_of_neg (by decide)]
      simp only [readSign, h1, h2, if_true]
      congr 1
      omega
    rw [stoi, hl]
    simp only [hz, if_true]
  · next hpos =>
    rw [stoi_numeral (by decide) (by decide) (by unfold IsInt at hz; omega)]
    congr 1
    omega

/-- A numeral is of digits and a sign. -/
theorem mem_intToStr {z : ℤ} {c : UInt8} (h : c ∈ intToStr z) :
    c = 45 ∨ ∃ d < 10, c = digitByte d := by
  unfold intToStr at h
  split at h
  · rcases List.mem_cons.mp h with rfl | h
    · exact Or.inl rfl
    · exact Or.inr (mem_numeral (by decide) h)
  · exact Or.inr (mem_numeral (by decide) h)

theorem intToStr_ne_nil (z : ℤ) : intToStr z ≠ [] := by
  unfold intToStr
  split
  · simp
  · exact numeral_ne_nil (by decide) _

end UvCpp.Cpp
