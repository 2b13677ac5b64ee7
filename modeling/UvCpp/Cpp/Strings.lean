import UvCpp.Cpp.Exec
import Mathlib.Data.List.Infix

/-!
# Byte strings

A `std::string` is the list of its bytes. `find s p i` is `s.find(p, i)`, with
`none` for `npos`; the patterns searched for are never empty. `substr` throws when
it starts past the end, as `std::string`'s constructors do.

`find` is defined through `search`, which looks in a list from its head; what a
search skips and where it stops is said of lists put together by `++`
(`search_append`, `search_append_self`), so that a parser's index arithmetic reduces to
how its input is put together. Where only the answer matters and not how it is
found, `find_eq_some_iff` characterizes it.
-/

namespace UvCpp.Cpp

/-- A `std::string`. -/
abbrev Bytes := List UInt8

/-- The bytes of an ASCII literal. -/
def bytes (s : String) : Bytes := s.toList.map fun c => UInt8.ofNat c.toNat

/-- `s.c_str()`: the bytes, and a zero after them. -/
def c_str (s : Bytes) : Bytes := s ++ [0]

/-- `s.resize(n)`: cut to `n` bytes, or filled with zeros up to `n`. -/
def resize (s : Bytes) (n : ℕ) : Bytes := s.take n ++ List.replicate (n - s.length) 0

@[simp] theorem length_resize (s : Bytes) (n : ℕ) : (resize s n).length = n := by
  rw [resize, List.length_append, List.length_take, List.length_replicate]
  omega

theorem resize_add (s : Bytes) (n : ℕ) : resize s (s.length + n) = s ++ List.replicate n 0 := by
  rw [resize, List.take_of_length_le (Nat.le_add_right _ _), Nat.add_sub_cancel_left]

/-- Writing over the fresh bytes at the end of a string. -/
theorem copyTo_replicate (s : Bytes) {src : Bytes} {n : ℕ} (h : src.length ≤ n) :
    copyTo (s ++ List.replicate n 0) s.length src = .ok (s ++ src ++ List.replicate (n - src.length) 0) := by
  rw [copyTo_eq (by simp only [List.length_append, List.length_replicate]; omega), List.take_left,
    ← List.drop_drop, List.drop_left, List.drop_replicate]

/-- A string made longer by as many bytes as are then copied behind it. -/
theorem copyTo_resize (s src : Bytes) :
    copyTo (resize s (s.length + src.length)) s.length src = .ok (s ++ src) := by
  rw [resize_add, copyTo_replicate s (le_refl _), Nat.sub_self, List.replicate_zero, List.append_nil]

theorem isPrefix_map_iff {α : Type} {f : α → α} {p : List α} (hf : ∀ c ∈ p, ∀ x, f x = c ↔ x = c) {t : List α} :
    p <+: t.map f ↔ p <+: t := by
  induction p generalizing t with
  | nil => exact iff_of_true List.nil_prefix List.nil_prefix
  | cons c p ih =>
    rw [List.forall_mem_cons] at hf
    cases t with
    | nil => rfl
    | cons x t =>
      rw [List.map_cons, List.cons_prefix_cons, List.cons_prefix_cons, ih hf.2, eq_comm, hf.1 x, eq_comm]

section Search

variable {α : Type} [DecidableEq α]

/-- The first place where `p` occurs in a list. -/
def search (p : List α) : List α → Option ℕ
  | [] => if p = [] then some 0 else none
  | c :: t => if p <+: c :: t then some 0 else (search p t).map (· + 1)

/-- `s.find(p, i)`. -/
def find (s p : List α) (i : ℕ) : Option ℕ := (search p (s.drop i)).map (i + ·)

theorem search_of_isPrefix {p t : List α} (h : p <+: t) : search p t = some 0 := by
  cases t with
  | nil => simp [search, List.prefix_nil.mp h]
  | cons c t => simp [search, h]

/-- A search ends where the pattern stands. -/
@[simp] theorem search_append_self (p t : List α) : search p (p ++ t) = some 0 :=
  search_of_isPrefix (List.prefix_append p t)

theorem search_cons_of_not_isPrefix {p t : List α} {c : α} (h : ¬ p <+: c :: t) :
    search p (c :: t) = (search p t).map (· + 1) := if_neg h

/-- A search skips a part that does not contain the pattern's first item. -/
theorem search_append {c : α} {p a : List α} (ha : c ∉ a) (t : List α) :
    search (c :: p) (a ++ t) = (search (c :: p) t).map (a.length + ·) := by
  induction a with
  | nil => simp
  | cons b a ih =>
    simp only [List.mem_cons, not_or] at ha
    rw [List.cons_append, search_cons_of_not_isPrefix, ih ha.2, Option.map_map]
    · congr 1
      funext n
      simp only [Function.comp, List.length_cons]
      omega
    · rw [List.cons_prefix_cons]
      exact fun h => ha.1 h.1

/-- A search finds nothing where the pattern's first item does not occur. -/
theorem search_eq_none {c : α} {p a : List α} (ha : c ∉ a) : search (c :: p) a = none := by
  have := search_append (p := p) ha []
  simpa [search] using this

/-- Changing items that are not in the pattern, to others that are not, does not change what is found. -/
theorem search_map {f : α → α} {p : List α} (hf : ∀ c ∈ p, ∀ x, f x = c ↔ x = c) (t : List α) :
    search p (t.map f) = search p t := by
  induction t with
  | nil => rfl
  | cons x t ih =>
    have hpre : p <+: f x :: t.map f ↔ p <+: x :: t := isPrefix_map_iff hf (t := x :: t)
    rw [List.map_cons, search, search, ih]
    simp only [hpre]

/-- A search for two different items ends at the latest where they stand: the first of them
cannot overlap an earlier match. -/
theorem search_pair_append {c d : α} (hcd : c ≠ d) (a t : List α) :
    search [c, d] (a ++ c :: d :: t) = some ((search [c, d] a).getD a.length) := by
  induction a with
  | nil => exact search_of_isPrefix (List.prefix_append [c, d] t)
  | cons b a ih =>
    have hpre : [c, d] <+: b :: (a ++ c :: d :: t) ↔ [c, d] <+: b :: a := by
      cases a with
      | nil => simp [List.cons_prefix_cons, hcd.symm]
      | cons x a => simp [List.cons_prefix_cons]
    by_cases h : [c, d] <+: b :: a
    · rw [List.cons_append, search_of_isPrefix (hpre.mpr h), search_of_isPrefix h]
      rfl
    · rw [List.cons_append, search_cons_of_not_isPrefix (hpre.not.mpr h), search_cons_of_not_isPrefix h, ih]
      cases search [c, d] a <;> rfl

/-- A search for a pattern that begins with two different items skips a part without them, also where
the first of them follows it. -/
theorem search_append_of_pair {c d : α} (hcd : c ≠ d) {a p : List α} (ha : search [c, d] a = none)
    (t : List α) : search (c :: d :: p) (a ++ c :: t) = (search (c :: d :: p) (c :: t)).map (a.length + ·) := by
  induction a with
  | nil => simp
  | cons b a ih =>
    have hpre : ¬ [c, d] <+: b :: a := fun h => by simp [search_of_isPrefix h] at ha
    rw [search_cons_of_not_isPrefix hpre, Option.map_eq_none_iff] at ha
    have hpre' : ¬ c :: d :: p <+: b :: (a ++ c :: t) := by
      intro h
      have h2 : [c, d] <+: b :: (a ++ c :: t) := (List.prefix_append [c, d] p).trans h
      cases a with
      | nil => simp [List.cons_prefix_cons, hcd.symm] at h2
      | cons x a => exact hpre (by simpa [List.cons_prefix_cons] using h2)
    rw [List.cons_append, search_cons_of_not_isPrefix hpre', ih ha, Option.map_map]
    congr 1
    funext n
    simp only [Function.comp, List.length_cons]
    omega

theorem search_eq_some_iff {p : List α} (hp : p ≠ []) {t : List α} {k : ℕ} :
    search p t = some k ↔ p <+: t.drop k ∧ ∀ j < k, ¬ p <+: t.drop j := by
  induction t generalizing k with
  | nil => simp [search, hp]
  | cons c t ih =>
    by_cases h : p <+: c :: t
    · rw [search_of_isPrefix h, Option.some.injEq]
      constructor
      · rintro rfl
        exact ⟨h, by simp⟩
      · rintro ⟨-, hk⟩
        by_contra hne
        exact hk 0 (by omega) h
    · rw [search_cons_of_not_isPrefix h, Option.map_eq_some_iff]
      constructor
      · rintro ⟨n, hn, rfl⟩
        obtain ⟨h1, h2⟩ := ih.mp hn
        refine ⟨h1, fun j hj => ?_⟩
        cases j with
        | zero => exact h
        | succ j => exact h2 j (by omega)
      · rintro ⟨h1, h2⟩
        cases k with
        | zero => exact absurd h1 h
        | succ k => exact ⟨k, ih.mpr ⟨h1, fun j hj => h2 (j + 1) (by omega)⟩, rfl⟩

/-- What is found lies inside the string. -/
theorem search_add_length_le {p : List α} (hp : p ≠ []) {t : List α} {k : ℕ} (h : search p t = some k) :
    k + p.length ≤ t.length := by
  have hle := ((search_eq_some_iff hp).mp h).1.length_le
  have hpos := List.length_pos_of_ne_nil hp
  rw [List.length_drop] at hle
  omega

theorem search_eq_none_iff {p : List α} (hp : p ≠ []) {t : List α} :
    search p t = none ↔ ∀ j, ¬ p <+: t.drop j := by
  induction t with
  | nil => simp [search, hp]
  | cons c t ih =>
    by_cases h : p <+: c :: t
    · rw [search_of_isPrefix h]
      simp only [reduceCtorEq, false_iff, not_forall, not_not]
      exact ⟨0, h⟩
    · rw [search_cons_of_not_isPrefix h, Option.map_eq_none_iff, ih]
      constructor
      · intro hj j
        cases j with
        | zero => exact h
        | succ j => exact hj j
      · exact fun hj j => hj (j + 1)

/-- What does not occur in a string does not occur in a part of it. -/
theorem search_eq_none_of_isInfix {p a b : List α} (hp : p ≠ []) (h : a <:+: b) (hb : search p b = none) :
    search p a = none := by
  obtain ⟨s, t, rfl⟩ := h
  rw [search_eq_none_iff hp] at hb ⊢
  intro j hj
  have hpos := List.length_pos_of_ne_nil hp
  have hle := hj.length_le
  rw [List.length_drop] at hle
  refine hb (s.length + j) ?_
  rw [List.append_assoc, ← List.drop_drop, List.drop_left, List.drop_append_of_le_length (by omega)]
  exact hj.trans (List.prefix_append _ t)

/-- Two items do not occur on the two sides of a third. -/
theorem search_pair_eq_none_iff {c d x : α} (hc : x ≠ c) (hd : x ≠ d) (a b : List α) :
    search [c, d] (a ++ x :: b) = none ↔ search [c, d] a = none ∧ search [c, d] b = none := by
  induction a with
  | nil =>
    have hpre : ¬ [c, d] <+: x :: b := fun h => hc (List.cons_prefix_cons.mp h).1.symm
    rw [List.nil_append, search_cons_of_not_isPrefix hpre, Option.map_eq_none_iff]
    simp [search]
  | cons y a ih =>
    have hpre : [c, d] <+: y :: (a ++ x :: b) ↔ [c, d] <+: y :: a := by
      cases a with
      | nil => simp [List.cons_prefix_cons, hd.symm]
      | cons z a => simp [List.cons_prefix_cons]
    by_cases h : [c, d] <+: y :: a
    · rw [List.cons_append, search_of_isPrefix (hpre.mpr h), search_of_isPrefix h]
      simp
    · rw [List.cons_append, search_cons_of_not_isPrefix (hpre.not.mpr h), search_cons_of_not_isPrefix h,
        Option.map_eq_none_iff, Option.map_eq_none_iff, ih]

/-- What is first found in a string is not found in a part that ends before it does. -/
theorem search_eq_none_of_isPrefix {p x s : List α} (hp : p ≠ []) (hx : x <+: s) {k : ℕ}
    (h : search p s = some k) (hlt : x.length < k + p.length) : search p x = none := by
  rw [search_eq_none_iff hp]
  intro j hj
  obtain ⟨y, rfl⟩ := hx
  have hle := hj.length_le
  have hpos := List.length_pos_of_ne_nil hp
  rw [List.length_drop] at hle
  have hj' : p <+: (x ++ y).drop j := by
    rw [List.drop_append_of_le_length (by omega)]
    exact hj.trans (List.prefix_append _ _)
  exact ((search_eq_some_iff hp).mp h).2 j (by omega) hj'

/-- Where `find` finds: the pattern stands there, and nowhere between. -/
theorem find_eq_some_iff {s p : List α} (hp : p ≠ []) {i k : ℕ} :
    find s p i = some k ↔ i ≤ k ∧ p <+: s.drop k ∧ ∀ j, i ≤ j → j < k → ¬ p <+: s.drop j := by
  simp only [find, Option.map_eq_some_iff, search_eq_some_iff hp, List.drop_drop]
  constructor
  · rintro ⟨n, ⟨h1, h2⟩, rfl⟩
    refine ⟨by omega, h1, fun j hij hj => ?_⟩
    have := h2 (j - i) (by omega)
    rwa [show i + (j - i) = j by omega] at this
  · rintro ⟨hik, h1, h2⟩
    refine ⟨k - i, ⟨by rwa [show i + (k - i) = k by omega], fun j hj => ?_⟩, by omega⟩
    exact h2 (i + j) (by omega) (by omega)

/-- What `find` finds does, too. -/
theorem find_add_length_le {s p : List α} (hp : p ≠ []) {i k : ℕ} (h : find s p i = some k) :
    k + p.length ≤ s.length := by
  obtain ⟨j, hj, rfl⟩ := Option.map_eq_some_iff.mp h
  have hle := search_add_length_le hp hj
  have hpos := List.length_pos_of_ne_nil hp
  rw [List.length_drop] at hle
  omega

/-- What is found in a string is found at the same place when the string gets longer. -/
theorem find_append {s p : List α} (hp : p ≠ []) {i k : ℕ} (h : find s p i = some k) (t : List α) :
    find (s ++ t) p i = some k := by
  have hle := find_add_length_le hp h
  obtain ⟨hik, hk, hfirst⟩ := (find_eq_some_iff hp).mp h
  refine (find_eq_some_iff hp).mpr ⟨hik, ?_, fun j hij hj hpre => ?_⟩
  · rw [List.drop_append_of_le_length (by omega)]
    exact hk.trans (List.prefix_append _ _)
  · rw [List.drop_append_of_le_length (by omega)] at hpre
    refine hfirst j hij hj (List.prefix_of_prefix_length_le hpre (List.prefix_append _ t) ?_)
    rw [List.length_drop]
    omega

/-- `find` from a place where the string goes on with `a`, which does not contain the
pattern's first item, and then with the pattern. -/
theorem find_of_drop {c : α} {s p a t : List α} {i : ℕ} (h : s.drop i = a ++ (c :: p ++ t))
    (ha : c ∉ a) : find s (c :: p) i = some (i + a.length) := by
  rw [find, h, search_append ha, search_append_self]
  simp

/-- `find` for two different items, from a place where the string goes on with `a` and then
with them. -/
theorem find_pair_of_drop {c d : α} (hcd : c ≠ d) {s a t : List α} {i : ℕ}
    (h : s.drop i = a ++ c :: d :: t) :
    find s [c, d] i = some (i + (search [c, d] a).getD a.length) := by
  rw [find, h, search_pair_append hcd]
  rfl

/-- `find` from a place where the rest of the string does not contain the pattern's
first item. -/
theorem find_of_drop_notMem {c : α} {s p a : List α} {i : ℕ} (h : s.drop i = a) (ha : c ∉ a) :
    find s (c :: p) i = none := by
  rw [find, h, search_eq_none ha]
  rfl

/-- The pieces between separators hold no separator. -/
theorem notMem_of_mem_splitOn {a : α} {s l : List α} (h : s ∈ l.splitOn a) : a ∉ s := by
  induction l generalizing s with
  | nil =>
    rw [List.splitOn_nil, List.mem_singleton] at h
    simp [h]
  | cons x l ih =>
    rw [List.splitOn_cons_eq_if_modifyHead] at h
    split at h
    · obtain rfl | h := List.mem_cons.mp h
      · simp
      · exact ih h
    · next hx =>
      obtain ⟨t, ts, hsplit⟩ := List.exists_cons_of_ne_nil (List.splitOn_ne_nil a l)
      rw [hsplit, List.modifyHead_cons] at h
      rw [hsplit] at ih
      obtain rfl | h := List.mem_cons.mp h
      · rw [List.mem_cons, not_or]
        exact ⟨fun heq => hx (by simp [heq]), ih List.mem_cons_self⟩
      · exact ih (List.mem_cons_of_mem t h)

/-- Whatever is no separator stands in one of the pieces. -/
theorem mem_iff_mem_splitOn {a b : α} (hb : b ≠ a) {l : List α} : b ∈ l ↔ ∃ s ∈ l.splitOn a, b ∈ s := by
  induction l with
  | nil => simp [List.splitOn_nil]
  | cons x l ih =>
    rw [List.splitOn_cons_eq_if_modifyHead, List.mem_cons, ih]
    split
    · next hx =>
      have hne : b ≠ x := fun heq => hb (heq.trans (beq_iff_eq.mp hx))
      simp [hne]
    · obtain ⟨t, ts, hsplit⟩ := List.exists_cons_of_ne_nil (List.splitOn_ne_nil a l)
      simp [hsplit, or_assoc]

end Search

/-! ### Substrings -/

/-- `std::string(s, i, n)`. -/
def substr (s : Bytes) (i n : ℕ) : Exec Bytes :=
  if i ≤ s.length then .ok ((s.drop i).take n) else .error .thrown

/-- `std::string(s, i)`. -/
def substrFrom (s : Bytes) (i : ℕ) : Exec Bytes :=
  if i ≤ s.length then .ok (s.drop i) else .error .thrown

/-- `s += t`. A string holds fewer than `2⁶³` bytes; it throws when the result would be longer. -/
def plusAssign (s t : Bytes) : Exec Bytes :=
  if s.length + t.length < 2 ^ 63 then .ok (s ++ t) else .error .thrown

/-- A substring that starts inside the string. -/
theorem returns_substr {s : Bytes} {i : ℕ} (h : i ≤ s.length) (n : ℕ) : (substr s i n).Returns :=
  ⟨_, if_pos h⟩

theorem returns_substrFrom {s : Bytes} {i : ℕ} (h : i ≤ s.length) : (substrFrom s i).Returns := ⟨_, if_pos h⟩

theorem le_length_of_drop {s a : Bytes} {i : ℕ} (h : s.drop i = a) (ha : a ≠ []) : i ≤ s.length := by
  by_contra hlt
  exact ha (h ▸ List.drop_eq_nil_of_le (by omega))

/-- The substring that stands at `i`. -/
theorem substr_of_drop {s a t : Bytes} {i : ℕ} (h : s.drop i = a ++ t) (hi : i ≤ s.length) :
    substr s i a.length = .ok a := by
  rw [substr, if_pos hi, h, List.take_left]

theorem substrFrom_of_drop {s a : Bytes} {i : ℕ} (h : s.drop i = a) (hi : i ≤ s.length) :
    substrFrom s i = .ok a := by
  rw [substrFrom, if_pos hi, h]

/-- Going on past `a`. -/
theorem drop_add_of_drop {α : Type} {s a t : List α} {i : ℕ} (h : s.drop i = a ++ t) :
    s.drop (i + a.length) = t := by
  rw [← List.drop_drop, h, List.drop_left]

end UvCpp.Cpp
