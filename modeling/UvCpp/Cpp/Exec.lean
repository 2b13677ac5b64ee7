import Mathlib.Algebra.Ring.Int.Defs
import Mathlib.Algebra.Ring.Nat
import Mathlib.Data.List.Basic

/-!
# What C++ does with a computation, an integer and an array

The programs modelled here are C++. A call may return, may throw, may have
undefined behaviour, or may never return; `Exec` keeps the four apart, so that
"the call returns" is a statement and not an assumption. `catch (...)` stops an
exception and nothing else.

Sizes and indices are natural numbers. No object has `2⁶³` bytes or more, so sums
of sizes do not pass `2⁶⁴`; a difference may go below zero, and wraps (`usub`). A
conversion to a 32-bit `int` keeps the low 32 bits (`toInt32`), and `int`
arithmetic that leaves 32 bits is undefined (`addInt`).
-/

namespace UvCpp.Cpp

/-! ### Faults -/

/-- Why a call does not return normally. -/
inductive Fault where
  /-- Undefined behaviour: an access outside an array, a null dereference, signed overflow. -/
  | undefined
  /-- An exception. -/
  | thrown
  /-- A loop that never ends. -/
  | loops
  deriving DecidableEq, Repr

/-- A computation: it returns a value, or it faults. -/
abbrev Exec (α : Type) := Except Fault α

instance {α : Type} [DecidableEq α] : DecidableEq (Exec α) := fun a b =>
  match a, b with
  | .ok x, .ok y => if h : x = y then isTrue (by rw [h]) else isFalse (by simpa using h)
  | .error x, .error y => if h : x = y then isTrue (by rw [h]) else isFalse (by simpa using h)
  | .ok _, .error _ => isFalse (by simp)
  | .error _, .ok _ => isFalse (by simp)

namespace Exec

variable {α β : Type}

/-- `try { x } catch (...) { h }`. -/
def catchAll (x h : Exec α) : Exec α :=
  match x with
  | .error .thrown => h
  | x => x

@[simp] theorem catchAll_ok (a : α) (h : Exec α) : catchAll (.ok a) h = .ok a := rfl

@[simp] theorem catchAll_thrown (h : Exec α) : catchAll (.error .thrown) h = h := rfl

@[simp] theorem ok_bind (a : α) (f : α → Exec β) : (Except.ok a : Exec α) >>= f = f a := rfl

@[simp] theorem error_bind (e : Fault) (f : α → Exec β) :
    (Except.error e : Exec α) >>= f = .error e := rfl

@[simp] theorem pure_eq_ok (a : α) : (pure a : Exec α) = .ok a := rfl

/-- A sequence returns when both its parts do. -/
theorem bind_eq_ok_iff {x : Exec α} {f : α → Exec β} {b : β} :
    x >>= f = .ok b ↔ ∃ a, x = .ok a ∧ f a = .ok b := by
  cases x with
  | ok a => simp
  | error e => simp

/-- A step that can happen and does not fault. -/
theorem bind_toOption_eq_some_iff {x : Option (Exec α)} {a : α} :
    x.bind Except.toOption = some a ↔ x = some (.ok a) := by
  rcases x with _ | _ | b
  · simp
  · simp [Except.toOption]
  · simp [Except.toOption]

/-- The fault of a step, if it can happen and faults. -/
def faultOf : Option (Exec α) → Option Fault
  | some (.error e) => some e
  | _ => none

theorem faultOf_eq_some_iff {x : Option (Exec α)} {e : Fault} : faultOf x = some e ↔ x = some (.error e) := by
  rcases x with _ | _ | _ <;> simp [faultOf]

/-- A call returns. -/
def Returns (x : Exec α) : Prop := ∃ a, x = .ok a

theorem returns_ok (a : α) : Returns (.ok a : Exec α) := ⟨a, rfl⟩

/-- A sequence returns if its first part does, and the second from what that returns. -/
theorem Returns.bind {x : Exec α} {f : α → Exec β} (hx : Returns x) (hf : ∀ a, x = .ok a → Returns (f a)) :
    Returns (x >>= f) := by
  obtain ⟨a, rfl⟩ := hx
  exact hf a rfl

/-- What throws or returns, and has a handler that returns, returns. -/
theorem returns_catchAll {x h : Exec α} (hx : x = .error .thrown ∨ Returns x) (hh : Returns h) :
    Returns (catchAll x h) := by
  obtain rfl | ⟨a, rfl⟩ := hx
  · exact hh
  · exact returns_ok a

end Exec

/-! ### Integers -/

/-- `a - b` in unsigned 64-bit arithmetic: below zero it wraps. -/
def usub (a b : ℕ) : ℕ := if b ≤ a then a - b else 2 ^ 64 - (b - a)

theorem usub_of_le {a b : ℕ} (h : b ≤ a) : usub a b = a - b := if_pos h

/-- The unsigned 64-bit value of a signed number: a negative one wraps. -/
def toUInt64 (z : ℤ) : ℕ := if 0 ≤ z then z.toNat else (2 ^ 64 + z).toNat

@[simp] theorem toUInt64_natCast (n : ℕ) : toUInt64 n = n := by simp [toUInt64]

/-- `(int)n`: the low 32 bits, read as a signed number. -/
def toInt32 (n : ℕ) : ℤ := Int.bmod n (2 ^ 32)

theorem toInt32_of_lt {n : ℕ} (h : n < 2 ^ 31) : toInt32 n = n :=
  Int.bmod_eq_of_le (by omega) (by omega)

theorem toInt32_of_ge {n : ℕ} (h : 2 ^ 31 ≤ n) (h' : n < 2 ^ 32) : toInt32 n = n - 2 ^ 32 := by
  have hsub : ((n : ℤ) - (4294967296 : ℕ)).bmod 4294967296 = n - (4294967296 : ℕ) :=
    Int.bmod_eq_of_le (by omega) (by omega)
  rw [Int.sub_bmod_right] at hsub
  exact hsub

/-- A number that does not fit in 31 bits changes in `(int)n`. -/
theorem toInt32_ne {n : ℕ} (h : 2 ^ 31 ≤ n) : toInt32 n ≠ n := by
  have hlt : toInt32 n < (2 ^ 32 + 1) / 2 := Int.bmod_lt (by decide)
  omega

/-- An `int`. -/
def IsInt (z : ℤ) : Prop := -2 ^ 31 ≤ z ∧ z < 2 ^ 31

instance (z : ℤ) : Decidable (IsInt z) := inferInstanceAs (Decidable (_ ∧ _))

theorem toUInt64_eq_zero_iff {z : ℤ} (hz : IsInt z) : toUInt64 z = 0 ↔ z = 0 := by
  unfold IsInt at hz
  unfold toUInt64
  split <;> omega

/-- A size and an `int`, taken as unsigned, make their sum if that is not negative. -/
theorem add_toUInt64_of_nonneg {a : ℕ} {z : ℤ} (ha : a < 2 ^ 63) (hz : IsInt z) (h : 0 ≤ a + z) :
    (((a + toUInt64 z) % 2 ^ 64 : ℕ) : ℤ) = a + z := by
  unfold IsInt at hz
  unfold toUInt64
  split <;> omega

/-- If it is, what they make is larger than any size. -/
theorem add_toUInt64_of_neg {a : ℕ} {z : ℤ} (hz : IsInt z) (h : a + z < 0) :
    2 ^ 63 ≤ (a + toUInt64 z) % 2 ^ 64 := by
  unfold IsInt at hz
  unfold toUInt64
  split <;> omega

/-- `a + b` for `int`s: overflow is undefined. -/
def addInt (a b : ℤ) : Exec ℤ := if IsInt (a + b) then .ok (a + b) else .error .undefined

theorem addInt_natCast {m n : ℕ} (h : m + n < 2 ^ 31) : addInt m n = .ok ((m + n : ℕ) : ℤ) := by
  rw [Int.natCast_add]
  exact if_pos ⟨by omega, by omega⟩

/-! ### Arrays -/

variable {α : Type}

/-- The elements `a[off .. off + n)` of an array. -/
def slice (a : List α) (off n : ℕ) : Exec (List α) :=
  if off + n ≤ a.length then .ok ((a.drop off).take n) else .error .undefined

/-- `std::copy` of `src` to `dst + off`. -/
def copyTo (dst : List α) (off : ℕ) (src : List α) : Exec (List α) :=
  if off + src.length ≤ dst.length then
    .ok (dst.take off ++ src ++ dst.drop (off + src.length))
  else .error .undefined

theorem slice_eq {a : List α} {off n : ℕ} (h : off + n ≤ a.length) :
    slice a off n = .ok ((a.drop off).take n) := if_pos h

theorem copyTo_eq {dst src : List α} {off : ℕ} (h : off + src.length ≤ dst.length) :
    copyTo dst off src = .ok (dst.take off ++ src ++ dst.drop (off + src.length)) := if_pos h

/-- A copy over the part `b` of an array. -/
theorem copyTo_append (a b t : List α) {src : List α} (h : b.length = src.length) :
    copyTo (a ++ (b ++ t)) a.length src = .ok (a ++ (src ++ t)) := by
  rw [copyTo_eq (by simp [h]), List.take_left, ← h, ← List.length_append, ← List.append_assoc,
    List.drop_left, List.append_assoc]

/-- A copy that stays inside the array keeps its length. -/
theorem length_of_copyTo {dst src m : List α} {off : ℕ} (h : copyTo dst off src = .ok m) :
    m.length = dst.length := by
  unfold copyTo at h
  split at h
  · cases h
    simp only [List.length_append, List.length_take, List.length_drop]
    omega
  · cases h

/-- What an array holds after a copy: inside the range what was copied, outside it what
was there. -/
theorem getElem?_of_copyTo {dst src m : List α} {off : ℕ} (h : copyTo dst off src = .ok m) (j : ℕ) :
    m[j]? = if off ≤ j ∧ j < off + src.length then src[j - off]? else dst[j]? := by
  unfold copyTo at h
  split at h
  · next hle =>
    cases h
    simp only [List.getElem?_append, List.length_append, List.length_take, List.getElem?_take,
      List.getElem?_drop]
    split_ifs <;> first | omega | rfl | (congr 1; omega)
  · cases h

end UvCpp.Cpp
