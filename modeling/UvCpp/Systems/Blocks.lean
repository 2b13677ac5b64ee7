import UvCpp.Cpp.Exec
import Mathlib.Data.List.Basic

/-!
# Memory in blocks

Blocks of memory are allocated, read and released. An address is the place of a block among all there have
been, so none is given twice. A block that has been released must be neither read nor released again, and
none may be read beyond its end (`read_of_live`, `release_of_live`).
-/

namespace UvCpp.Systems

open UvCpp.Cpp

/-- What lies in each block there has been; `none` is a block that has been released. -/
abbrev Blocks (α : Type) := List (Option (List α))

namespace Blocks

variable {α : Type} {m : Blocks α} {a b i n : ℕ} {data : List α}

/-- A new block; its address is the length of the list before. -/
def alloc (m : Blocks α) (data : List α) : Blocks α := m ++ [some data]

/-- A block is released. -/
def release (m : Blocks α) (a : ℕ) : Exec (Blocks α) :=
  match m[a]? with
  | some (some _) => .ok (m.set a none)
  | _ => .error .undefined

/-- Some of a block is read. -/
def read (m : Blocks α) (a i n : ℕ) : Exec (List α) :=
  match m[a]? with
  | some (some data) => slice data i n
  | _ => .error .undefined

@[simp] theorem length_alloc (m : Blocks α) (data : List α) : (m.alloc data).length = m.length + 1 := by
  simp [alloc]

@[simp] theorem getElem?_alloc_self (m : Blocks α) (data : List α) : (m.alloc data)[m.length]? = some (some data) :=
  List.getElem?_concat_length

/-- A block can be released while it is there. -/
theorem release_of_live (h : m[a]? = some (some data)) : m.release a = .ok (m.set a none) := by
  rw [release, h]

/-- A block can be read within its bounds while it is there. -/
theorem read_of_live (h : m[a]? = some (some data)) (hle : i + n ≤ data.length) :
    m.read a i n = .ok ((data.drop i).take n) := by
  rw [read, h]
  exact slice_eq hle

theorem read_of_released (h : m[a]? = some none) : m.read a i n = .error .undefined := by
  rw [read, h]

/-- A new block is released. -/
@[simp] theorem set_alloc (m : Blocks α) (data : List α) : (m.alloc data).set m.length none = m ++ [none] := by
  simp [alloc]

theorem getElem?_concat_of_ne (m : Blocks α) {block : Option (List α)} (h : a ≠ m.length) :
    (m ++ [block])[a]? = m[a]? := by
  rw [List.getElem?_append]
  split
  · rfl
  · next hge => rw [List.getElem?_eq_none (by simp; omega), List.getElem?_eq_none (by omega)]

theorem getElem?_release (h : m[a]? = some (some data)) : (m.set a none)[a]? = some none :=
  List.getElem?_set_self (List.getElem?_eq_some_iff.mp h).1

/-! ### Who owns the blocks -/

/-- The blocks that have not been released, each listed once. -/
structure Owned (m : Blocks α) (owners : List ℕ) : Prop where
  /-- None is listed twice. -/
  nodup : owners.Nodup
  /-- They are those that are there. -/
  live : ∀ a, (∃ data, m[a]? = some (some data)) ↔ a ∈ owners

variable {owners owners' : List ℕ}

theorem Owned.nil : Owned ([] : Blocks α) [] := ⟨List.nodup_nil, fun a => by simp⟩

theorem Owned.perm (h : m.Owned owners) (hperm : owners.Perm owners') : m.Owned owners' :=
  ⟨hperm.nodup_iff.mp h.nodup, fun a => (h.live a).trans hperm.mem_iff⟩

theorem Owned.notMem_length (h : m.Owned owners) : m.length ∉ owners := by
  intro hmem
  obtain ⟨data, hdata⟩ := (h.live _).mpr hmem
  rw [List.getElem?_eq_none (Nat.le_refl _)] at hdata
  cases hdata

/-- A new block has an owner. -/
theorem Owned.alloc (h : m.Owned owners) (data : List α) : (m.alloc data).Owned (m.length :: owners) := by
  refine ⟨List.nodup_cons.mpr ⟨h.notMem_length, h.nodup⟩, fun a => ?_⟩
  rw [List.mem_cons, ← h.live]
  by_cases ha : a = m.length
  · subst ha
    exact ⟨fun _ => .inl rfl, fun _ => ⟨data, getElem?_alloc_self m data⟩⟩
  · rw [Blocks.alloc, getElem?_concat_of_ne m ha]
    simp [ha]

/-- A block is released by its owner. -/
theorem Owned.release (h : m.Owned (a :: owners)) :
    m.release a = .ok (m.set a none) ∧ Owned (m.set a none) owners := by
  obtain ⟨hnot, hnodup⟩ := List.nodup_cons.mp h.nodup
  obtain ⟨data, hdata⟩ := (h.live a).mpr List.mem_cons_self
  refine ⟨release_of_live hdata, hnodup, fun i => ?_⟩
  by_cases hi : i = a
  · subst hi
    rw [getElem?_release hdata]
    simp [hnot]
  · rw [List.getElem?_set_ne (Ne.symm hi), h.live]
    simp [hi]

end Blocks

end UvCpp.Systems
