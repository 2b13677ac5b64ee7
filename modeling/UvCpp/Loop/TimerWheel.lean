import UvCpp.Systems.Run
import Mathlib.Data.Finset.Sort

/-!
# The timer wheel

A ring of sets, one for each second of the timeout. `insert` puts a value into the set that is
current; once a second `wheelCallback` makes the next set current and empties it. Between the
insert of a value and the tick that empties its set lies one turn of the wheel.

`wheelCallback` compares the index with the timeout for equality, and neither with the number of
the sets: the wheel is left, sooner or later, unless the timeout is 0 or greater than the index and
no greater than that number (`ticks_in_bounds_iff`). So a timeout that is set when the wheel turns
must lie beyond the index, and nothing may be inserted before `start` has made the sets
(`in_bounds`).
-/

namespace UvCpp

open UvCpp.Cpp UvCpp.Systems

variable {α : Type}

/-- `uv::TimerWheel`. -/
structure TimerWheel (α : Type) where
  /-- The set that is current. -/
  index_ : UInt32
  /-- The timeout, in seconds; 0 if there is none. -/
  timeoutSec_ : UInt32
  /-- The sets. -/
  wheel_ : List (Finset α)

namespace TimerWheel

/-- A new wheel. -/
def new (timeout : UInt32) : TimerWheel α := ⟨0, timeout, []⟩

/-- `setTimeout`. -/
def setTimeout (w : TimerWheel α) (seconds : UInt32) : TimerWheel α := { w with timeoutSec_ := seconds }

/-- `wheel_.resize(n)`. -/
def resize (wheel : List (Finset α)) (n : ℕ) : List (Finset α) :=
  wheel.take n ++ List.replicate (n - wheel.length) ∅

/-- `start`; the timer is not part of this. -/
def start (w : TimerWheel α) : TimerWheel α :=
  if w.timeoutSec_ ≠ 0 then { w with wheel_ := resize w.wheel_ w.timeoutSec_.toNat } else w

variable [LinearOrder α]

/-- `insert`. -/
def insert (w : TimerWheel α) (value : Option α) : Exec (TimerWheel α) :=
  match value with
  | some v =>
    if 0 < w.timeoutSec_ then
      match w.wheel_[w.index_.toNat]? with
      | some slot => .ok { w with wheel_ := w.wheel_.set w.index_.toNat (Insert.insert v slot) }
      | none => .error .undefined
    else .ok w
  | none => .ok w

/-- The wheel keeps a reference to a value. -/
def Holds (w : TimerWheel α) (v : α) : Prop := ∃ slot ∈ w.wheel_, v ∈ slot

instance (w : TimerWheel α) (v : α) : Decidable (w.Holds v) :=
  inferInstanceAs (Decidable (∃ slot ∈ w.wheel_, v ∈ slot))

/-- `++index_`, and back to 0 at the timeout. -/
def next (w : TimerWheel α) : UInt32 :=
  if w.index_ + 1 = w.timeoutSec_ then 0 else w.index_ + 1

/-- `wheelCallback`, and the values to which the wheel has given up its last reference, in the order
of the set that is emptied. -/
def wheelCallback (w : TimerWheel α) : Exec (TimerWheel α × List α) :=
  if w.timeoutSec_ = 0 then .ok (w, [])
  else
    match w.wheel_[w.next.toNat]? with
    | some slot =>
      let w' := { w with index_ := w.next, wheel_ := w.wheel_.set w.next.toNat ∅ }
      .ok (w', slot.sort.filter fun v => ¬ w'.Holds v)
    | none => .error .undefined

/-- A call. -/
inductive Call (α : Type) where
  /-- `setTimeout`. -/
  | setTimeout (seconds : UInt32)
  /-- `start`. -/
  | start
  /-- `insert`, of a value or `nullptr`. -/
  | insert (value : Option α)
  /-- `wheelCallback`. -/
  | tick

/-- A step: a call, and the values it drops. -/
def step (w : TimerWheel α) : Call α → Exec (TimerWheel α × List α)
  | .setTimeout seconds => .ok (w.setTimeout seconds, [])
  | .start => .ok (w.start, [])
  | .insert value => do
    let w ← w.insert value
    .ok (w, [])
  | .tick => w.wheelCallback

omit [LinearOrder α] in
@[simp] theorem length_resize (wheel : List (Finset α)) (n : ℕ) : (resize wheel n).length = n := by
  rw [resize, List.length_append, List.length_take, List.length_replicate]
  omega

variable {w w' : TimerWheel α}

omit [LinearOrder α] in
theorem toNat_next (w : TimerWheel α) :
    w.next.toNat = if (w.index_.toNat + 1) % 2 ^ 32 = w.timeoutSec_.toNat then 0
      else (w.index_.toNat + 1) % 2 ^ 32 := by
  have hadd : (w.index_ + 1).toNat = (w.index_.toNat + 1) % 2 ^ 32 := UInt32.toNat_add w.index_ 1
  rw [next, ← hadd]
  simp only [UInt32.toNat_inj]
  split <;> rfl

/-- The wheel after an insert. -/
def inserted (w : TimerWheel α) (v : α) : TimerWheel α :=
  { w with wheel_ := w.wheel_.modify w.index_.toNat (Insert.insert v) }

theorem insert_of_lt (hpos : w.timeoutSec_ ≠ 0) (hlt : w.index_.toNat < w.wheel_.length) (v : α) :
    w.insert (some v) = .ok (w.inserted v) := by
  have hpos : 0 < w.timeoutSec_ := UInt32.pos_iff_ne_zero.mpr hpos
  simp [insert, inserted, hpos, List.getElem?_eq_getElem hlt, List.modify_eq_set_getElem?]

theorem insert_of_zero (hzero : w.timeoutSec_ = 0) (v : α) : w.insert (some v) = .ok w := by
  simp [insert, hzero]

/-- The wheel after a tick. -/
def ticked (w : TimerWheel α) : TimerWheel α :=
  { w with index_ := w.next, wheel_ := w.wheel_.set w.next.toNat ∅ }

theorem wheelCallback_of_lt (hpos : w.timeoutSec_ ≠ 0) (hlt : w.next.toNat < w.wheel_.length) :
    w.wheelCallback = .ok (w.ticked, (w.wheel_[w.next.toNat].sort).filter fun v => ¬ w.ticked.Holds v) := by
  rw [wheelCallback, if_neg hpos, List.getElem?_eq_getElem hlt]
  rfl

theorem wheelCallback_of_ge (hpos : w.timeoutSec_ ≠ 0) (hle : w.wheel_.length ≤ w.next.toNat) :
    w.wheelCallback = .error .undefined := by
  rw [wheelCallback, if_neg hpos, List.getElem?_eq_none hle]

theorem wheelCallback_of_zero (hzero : w.timeoutSec_ = 0) : w.wheelCallback = .ok (w, []) := by
  rw [wheelCallback, if_pos hzero]

/-! ### In bounds -/

/-- A timeout that is set is 0 or beyond the index; and when a value is inserted or the wheel turns,
`start` has made the sets for the timeout. -/
def Orderly (w : TimerWheel α) : Call α → Prop
  | .setTimeout seconds => seconds = 0 ∨ w.index_ < seconds
  | .insert (some _) => w.timeoutSec_.toNat ≤ w.wheel_.length
  | .tick => w.timeoutSec_.toNat ≤ w.wheel_.length
  | _ => True

/-- The index is below the timeout, if there is one. -/
def Below (w : TimerWheel α) : Prop := w.timeoutSec_ ≠ 0 → w.index_.toNat < w.timeoutSec_.toNat

omit [LinearOrder α] in
theorem next_lt (h : w.Below) (hpos : w.timeoutSec_ ≠ 0) : w.next.toNat < w.timeoutSec_.toNat := by
  have hlt := h hpos
  have hsize := w.timeoutSec_.toNat_lt
  rw [toNat_next]
  split <;> omega

/-- **The step lemma.** -/
theorem Below.step (h : w.Below) {call : Call α} (hok : w.Orderly call) :
    ∃ w' dead, w.step call = .ok (w', dead) ∧ w'.Below := by
  cases call with
  | setTimeout seconds =>
    refine ⟨_, _, rfl, fun hpos => ?_⟩
    rcases hok with hzero | hlt
    · exact absurd hzero hpos
    · exact hlt
  | start =>
    refine ⟨_, _, rfl, ?_⟩
    rw [start]
    split <;> exact h
  | insert value =>
    cases value with
    | none => exact ⟨w, [], rfl, h⟩
    | some v =>
      by_cases hpos : w.timeoutSec_ = 0
      · exact ⟨w, [], by rw [TimerWheel.step, insert_of_zero hpos]; rfl, h⟩
      · have hlt : w.index_.toNat < w.wheel_.length := (h hpos).trans_le hok
        exact ⟨w.inserted v, [], by rw [TimerWheel.step, insert_of_lt hpos hlt]; rfl, h⟩
  | tick =>
    by_cases hpos : w.timeoutSec_ = 0
    · exact ⟨w, [], wheelCallback_of_zero hpos, h⟩
    · have hlt := next_lt h hpos
      exact ⟨_, _, wheelCallback_of_lt hpos (hlt.trans_le hok), fun _ => hlt⟩

/-- **The wheel is not left**, in every run whose calls meet the condition. -/
theorem in_bounds (timeout : UInt32) (calls : List (Call α))
    (hok : AllSteps step Orderly (new timeout) calls) :
    ∃ w deads, runAll step (new timeout) calls = .ok (w, deads) := by
  have hbelow : (new timeout : TimerWheel α).Below := by
    intro hpos
    exact UInt32.pos_iff_ne_zero.mpr hpos
  generalize new timeout = w at hok hbelow
  induction calls generalizing w with
  | nil => exact ⟨w, [], rfl⟩
  | cons call calls ih =>
    obtain ⟨w', dead, hstep, hbelow'⟩ := hbelow.step hok.head
    obtain ⟨w'', deads, hrun⟩ := ih w' (hok.tail hstep) hbelow'
    exact ⟨w'', dead :: deads, runAll_cons_of hstep hrun⟩

theorem in_bounds_sample : ∃ w deads, runAll step (new 0 : TimerWheel ℕ)
    [.setTimeout 2, .start, .insert (some 7), .tick, .setTimeout 5, .start, .tick] = .ok (w, deads) := by
  apply in_bounds
  refine .cons (.inr (by decide)) fun w _ h => ?_
  cases h
  refine .cons trivial fun w _ h => ?_
  cases h
  refine .cons (le_refl (2 : ℕ)) fun w _ h => ?_
  cases h
  refine .cons (le_refl (2 : ℕ)) fun w _ h => ?_
  cases h
  refine .cons (.inr (by decide)) fun w _ h => ?_
  cases h
  refine .cons trivial fun w _ h => ?_
  cases h
  exact .cons (le_refl (5 : ℕ)) fun w _ h => .nil

/-- **A timeout that is set when the server listens already, for the first time, leaves no set for
the first connection.** -/
theorem not_in_bounds : runAll step (new 0 : TimerWheel ℕ) [.start, .setTimeout 5, .insert (some 7)] =
    .error .undefined := rfl

/-- The wheel turns. -/
def Turns (w : TimerWheel α) (n : ℕ) : Prop :=
  ∃ w' deads, runAll step w (List.replicate n .tick) = .ok (w', deads)

theorem Turns.of_succ {n : ℕ} (h : w.Turns (n + 1)) :
    ∃ w' dead, w.wheelCallback = .ok (w', dead) ∧ w'.Turns n := by
  obtain ⟨w', deads, hrun⟩ := h
  rw [List.replicate_succ, runAll_cons_eq_ok_iff] at hrun
  obtain ⟨u, dead, deads', hstep, hrun, -⟩ := hrun
  exact ⟨u, dead, hstep, w', deads', hrun⟩

theorem Turns.ticked {n : ℕ} (h : w.Turns (n + 1)) (hpos : w.timeoutSec_ ≠ 0) :
    w.next.toNat < w.wheel_.length ∧ w.ticked.Turns n := by
  obtain ⟨w', dead, htick, hturns⟩ := h.of_succ
  by_cases hlt : w.next.toNat < w.wheel_.length
  · rw [wheelCallback_of_lt hpos hlt] at htick
    cases htick
    exact ⟨hlt, hturns⟩
  · rw [wheelCallback_of_ge hpos (not_lt.mp hlt)] at htick
    cases htick

/-- When the timeout does not lie between the index and the number of the sets, the wheel is left. -/
theorem not_turns_of_lt (hpos : w.timeoutSec_ ≠ 0) (hsize : w.wheel_.length < 2 ^ 32)
    (hlt : w.index_.toNat < w.wheel_.length)
    (hout : w.timeoutSec_.toNat ≤ w.index_.toNat ∨ w.wheel_.length < w.timeoutSec_.toNat) :
    ¬ w.Turns (w.wheel_.length - w.index_.toNat) := by
  generalize hn : w.wheel_.length - w.index_.toNat = n
  induction n generalizing w with
  | zero => omega
  | succ n ih =>
    intro hturns
    obtain ⟨hnext, hturns⟩ := hturns.ticked hpos
    have heq : w.next.toNat = w.index_.toNat + 1 := by
      rw [toNat_next] at hnext ⊢
      rw [Nat.mod_eq_of_lt (by omega), if_neg (by omega)]
    have hindex : w.ticked.index_.toNat = w.index_.toNat + 1 := heq
    have hlength : w.ticked.wheel_.length = w.wheel_.length := by simp [TimerWheel.ticked]
    refine ih (w := w.ticked) hpos ?_ ?_ ?_ ?_ hturns
    · rwa [hlength]
    · rw [hlength, hindex]
      omega
    · rw [hlength, hindex]
      have : w.ticked.timeoutSec_ = w.timeoutSec_ := rfl
      rw [this]
      omega
    · rw [hlength, hindex]
      omega

/-- **When the wheel is not left**: it turns for ever exactly when there is no timeout, or the
timeout is beyond the index and there are sets for it. -/
theorem ticks_in_bounds_iff (hsize : w.wheel_.length < 2 ^ 32) (hindex : w.index_.toNat + 1 < 2 ^ 32) :
    (∀ n, w.Turns n) ↔ w.timeoutSec_ = 0 ∨
      (w.index_.toNat < w.timeoutSec_.toNat ∧ w.timeoutSec_.toNat ≤ w.wheel_.length) := by
  constructor
  · intro hturns
    by_contra hout
    obtain ⟨hpos, hout⟩ := not_or.mp hout
    by_cases hlt : w.index_.toNat < w.wheel_.length
    · exact not_turns_of_lt hpos hsize hlt (by omega) (hturns _)
    · obtain ⟨hnext, -⟩ := (hturns 1).ticked hpos
      have hsteps : ∀ n, w.ticked.Turns n := fun n => ((hturns (n + 1)).ticked hpos).2
      have hmod : (w.index_.toNat + 1) % 2 ^ 32 = w.index_.toNat + 1 := Nat.mod_eq_of_lt hindex
      have hlength : w.ticked.wheel_.length = w.wheel_.length := by simp [TimerWheel.ticked]
      rw [toNat_next, hmod] at hnext
      split at hnext
      · next heq =>
        have hzero : w.ticked.index_.toNat = 0 := by
          rw [TimerWheel.ticked, toNat_next, hmod, if_pos heq]
        refine not_turns_of_lt (w := w.ticked) hpos ?_ ?_ (.inr ?_) (hsteps _)
        · rwa [hlength]
        · rwa [hlength, hzero]
        · rw [hlength]
          exact (not_lt.mp hlt).trans_lt (heq ▸ Nat.lt_succ_self _)
      · omega
  · intro hin n
    induction n generalizing w with
    | zero => exact ⟨w, [], rfl⟩
    | succ n ih =>
      rcases hin with hzero | ⟨hlt, hle⟩
      · obtain ⟨w', deads, hrun⟩ := ih hsize hindex (.inl hzero)
        exact ⟨w', [] :: deads, runAll_cons_of (wheelCallback_of_zero hzero) hrun⟩
      · have hpos : w.timeoutSec_ ≠ 0 := fun hzero => by simp [hzero] at hlt
        have hnext := next_lt (fun _ => hlt) hpos
        have hlength : w.ticked.wheel_.length = w.wheel_.length := by simp [TimerWheel.ticked]
        have hmax := w.timeoutSec_.toNat_lt
        obtain ⟨w', deads, hrun⟩ := ih (w := w.ticked) (by rwa [hlength])
          ((Nat.succ_le_of_lt hnext).trans_lt hmax) (.inr ⟨hnext, by rwa [hlength]⟩)
        exact ⟨w', _, runAll_cons_of (wheelCallback_of_lt hpos (hnext.trans_le hle)) hrun⟩

/-! ### The window -/

/-- The calls when the wheel turns: a value is inserted, or a second passes. -/
inductive Beat (α : Type) where
  /-- `insert`. -/
  | insert (value : Option α)
  /-- `wheelCallback`. -/
  | tick

/-- The call. -/
def Beat.call : Beat α → Call α
  | .insert value => .insert value
  | .tick => .tick

/-- How many ticks there have been since each insert of a value, the latest insert first. -/
def ages (v : α) (beats : List (Beat α)) : List ℕ :=
  beats.foldl (fun ages beat =>
    match beat with
    | .insert none => ages
    | .insert (some u) => if u = v then 0 :: ages else ages
    | .tick => ages.map (· + 1)) []

/-- How many ticks there have been since the latest insert of a value. -/
def age (v : α) (beats : List (Beat α)) : Option ℕ := (ages v beats).head?

/-- A wheel that has been started with a timeout. -/
def started (timeout : UInt32) : TimerWheel α := ((new 0).setTimeout timeout).start

theorem ages_concat (v : α) (beats : List (Beat α)) (beat : Beat α) :
    ages v (beats ++ [beat]) = match beat with
      | .insert none => ages v beats
      | .insert (some u) => if u = v then 0 :: ages v beats else ages v beats
      | .tick => (ages v beats).map (· + 1) := by
  rw [ages, List.foldl_append]
  rfl

theorem ages_sorted (v : α) (beats : List (Beat α)) : (ages v beats).Pairwise (· ≤ ·) := by
  induction beats using List.reverseRecOn with
  | nil => exact .nil
  | append_singleton beats beat ih =>
    rw [ages_concat]
    cases beat with
    | insert value =>
      cases value with
      | none => exact ih
      | some u =>
        dsimp only
        split
        · exact .cons (fun k _ => Nat.zero_le k) ih
        · exact ih
    | tick =>
      rw [List.pairwise_map]
      exact ih.imp Nat.succ_le_succ

/-- A value was inserted less than so many ticks ago if the latest insert of it was. -/
theorem exists_mem_ages_iff (v : α) (beats : List (Beat α)) (n : ℕ) :
    (∃ k ∈ ages v beats, k < n) ↔ ∃ k, age v beats = some k ∧ k < n := by
  have hsorted := ages_sorted v beats
  rw [age]
  cases h : ages v beats with
  | nil => simp
  | cons a as =>
    rw [h] at hsorted
    simp only [List.head?_cons, Option.some.injEq, exists_eq_left']
    constructor
    · rintro ⟨k, hk, hlt⟩
      rcases List.mem_cons.mp hk with rfl | hk
      · exact hlt
      · exact (List.rel_of_pairwise_cons hsorted hk).trans_lt hlt
    · intro hlt
      exact ⟨a, List.mem_cons_self, hlt⟩

/-- How many ticks ago a set was current. -/
def since (w : TimerWheel α) (j : ℕ) : ℕ :=
  if j ≤ w.index_.toNat then w.index_.toNat - j else w.index_.toNat + w.timeoutSec_.toNat - j

/-- What the sets of a turning wheel hold: each the values inserted when it was current last. -/
structure Turning (timeout : UInt32) (beats : List (Beat α)) (w : TimerWheel α) : Prop where
  /-- There is a timeout. -/
  pos : timeout ≠ 0
  /-- It is the one that was set. -/
  set : w.timeoutSec_ = timeout
  /-- There is a set for each second of it. -/
  length : w.wheel_.length = timeout.toNat
  /-- One of them is current. -/
  index : w.index_.toNat < timeout.toNat
  /-- A value is in a set if it was inserted when the set was current. -/
  slot : ∀ j slot, w.wheel_[j]? = some slot → ∀ v, v ∈ slot ↔ w.since j ∈ ages v beats

variable {timeout : UInt32} {beats : List (Beat α)}

theorem Turning.started (hpos : timeout ≠ 0) : Turning timeout [] (started timeout : TimerWheel α) := by
  have heq : (TimerWheel.started timeout : TimerWheel α) =
      ⟨0, timeout, List.replicate timeout.toNat ∅⟩ := by
    simp [TimerWheel.started, new, setTimeout, start, hpos, resize]
  rw [heq]
  refine ⟨hpos, rfl, List.length_replicate, UInt32.pos_iff_ne_zero.mpr hpos, ?_⟩
  intro j slot hslot v
  obtain ⟨-, rfl⟩ : j < timeout.toNat ∧ ∅ = slot := by simpa [List.getElem?_replicate] using hslot
  simp [ages]

theorem Turning.lt_of_getElem? (h : Turning timeout beats w) {j : ℕ} {slot : Finset α}
    (hslot : w.wheel_[j]? = some slot) : j < w.timeoutSec_.toNat := by
  obtain ⟨hlt, -⟩ := List.getElem?_eq_some_iff.mp hslot
  rwa [h.set, ← h.length]

theorem Turning.inserted (h : Turning timeout beats w) (v : α) :
    Turning timeout (beats ++ [.insert (some v)]) (w.inserted v) := by
  refine ⟨h.pos, h.set, by simpa [TimerWheel.inserted] using h.length, h.index, ?_⟩
  intro j slot hslot u
  have hsince : (w.inserted v).since j = w.since j := rfl
  rw [TimerWheel.inserted, List.getElem?_modify, Option.map_eq_map, Option.map_eq_some_iff] at hslot
  obtain ⟨old, hold, rfl⟩ := hslot
  have hmem := h.slot j old hold u
  have hlt := h.lt_of_getElem? hold
  rw [ages_concat, hsince]
  by_cases hj : w.index_.toNat = j
  · have hzero : w.since j = 0 := by simp [since, hj]
    rw [hzero] at hmem ⊢
    rw [if_pos hj, Finset.mem_insert, hmem]
    dsimp only
    split
    · next heq => simp [heq]
    · next hne => simp [Ne.symm hne]
  · have hne : w.since j ≠ 0 := by
      rw [since]
      split <;> omega
    rw [if_neg hj, hmem]
    dsimp only
    split
    · simp [hne]
    · rfl

theorem Turning.toNat_next (h : Turning timeout beats w) :
    w.next.toNat = if w.index_.toNat + 1 = w.timeoutSec_.toNat then 0 else w.index_.toNat + 1 := by
  have hindex := h.index
  have hsize := timeout.toNat_lt
  rw [TimerWheel.toNat_next, Nat.mod_eq_of_lt (by omega)]

theorem Turning.next_lt (h : Turning timeout beats w) : w.next.toNat < timeout.toNat := by
  have hindex := h.index
  rw [h.toNat_next, h.set]
  split <;> omega

theorem Turning.ticked (h : Turning timeout beats w) : Turning timeout (beats ++ [.tick]) w.ticked := by
  have hnext := h.next_lt
  refine ⟨h.pos, h.set, by simpa [TimerWheel.ticked] using h.length, hnext, ?_⟩
  intro j slot hslot v
  have hsince : w.ticked.since j = if j ≤ w.next.toNat then w.next.toNat - j
    else w.next.toNat + w.timeoutSec_.toNat - j := rfl
  rw [ages_concat, hsince]
  rw [TimerWheel.ticked, List.getElem?_set] at hslot
  split at hslot
  · next heq =>
    rw [if_pos (by rw [h.length]; exact hnext), Option.some.injEq] at hslot
    simp [← hslot, heq]
  · next hne =>
    have hlt := h.lt_of_getElem? hslot
    have hsucc : (if j ≤ w.next.toNat then w.next.toNat - j
        else w.next.toNat + w.timeoutSec_.toNat - j) = w.since j + 1 := by
      rw [h.toNat_next] at hne ⊢
      have hindex := h.index
      rw [← h.set] at hindex
      rw [since]
      split_ifs at hne ⊢ <;> omega
    rw [hsucc, h.slot j slot hslot v]
    simp

/-- What the wheel holds: the values inserted within the timeout. -/
theorem Turning.holds_iff (h : Turning timeout beats w) (v : α) :
    w.Holds v ↔ ∃ k, age v beats = some k ∧ k < timeout.toNat := by
  rw [← exists_mem_ages_iff]
  have hindex := h.index
  constructor
  · rintro ⟨slot, hslot, hv⟩
    obtain ⟨j, hj⟩ := List.getElem?_of_mem hslot
    have hlt := h.lt_of_getElem? hj
    refine ⟨w.since j, (h.slot j slot hj v).mp hv, ?_⟩
    rw [since, h.set]
    rw [h.set] at hlt
    split <;> omega
  · rintro ⟨k, hk, hlt⟩
    -- the set that was current `k` ticks ago
    obtain ⟨j, hj, hsince⟩ : ∃ j < timeout.toNat, w.since j = k := by
      by_cases hle : k ≤ w.index_.toNat
      · exact ⟨w.index_.toNat - k, by omega, by rw [since, if_pos (by omega)]; omega⟩
      · refine ⟨w.index_.toNat + timeout.toNat - k, by omega, ?_⟩
        rw [since, h.set, if_neg (by omega)]
        omega
    have hslot := List.getElem?_eq_getElem (h.length ▸ hj : j < w.wheel_.length)
    refine ⟨_, List.mem_of_getElem? hslot, (h.slot j _ hslot v).mpr ?_⟩
    rwa [hsince]

/-- A turning wheel takes every call. -/
theorem Turning.step (h : Turning timeout beats w) (beat : Beat α) :
    ∃ w' dead, w.step beat.call = .ok (w', dead) ∧ Turning timeout (beats ++ [beat]) w' := by
  have hpos : w.timeoutSec_ ≠ 0 := by
    rw [h.set]
    exact h.pos
  cases beat with
  | insert value =>
    cases value with
    | none =>
      refine ⟨w, [], rfl, h.pos, h.set, h.length, h.index, fun j slot hslot v => ?_⟩
      rw [ages_concat]
      exact h.slot j slot hslot v
    | some v =>
      have hlt : w.index_.toNat < w.wheel_.length := by
        rw [h.length]
        exact h.index
      exact ⟨w.inserted v, [], by rw [Beat.call, TimerWheel.step, insert_of_lt hpos hlt]; rfl, h.inserted v⟩
  | tick =>
    have hlt : w.next.toNat < w.wheel_.length := by
      rw [h.length]
      exact h.next_lt
    exact ⟨w.ticked, _, wheelCallback_of_lt hpos hlt, h.ticked⟩

/-- **A started wheel turns**, whatever is inserted. -/
theorem turning_of_run (hpos : timeout ≠ 0) (beats : List (Beat α)) : ∃ w deads,
    runAll step (started timeout) (beats.map Beat.call) = .ok (w, deads) ∧ Turning timeout beats w := by
  induction beats using List.reverseRecOn with
  | nil => exact ⟨_, [], rfl, .started hpos⟩
  | append_singleton beats beat ih =>
    obtain ⟨w, deads, hrun, h⟩ := ih
    obtain ⟨w', dead, hstep, h'⟩ := h.step beat
    refine ⟨w', deads ++ [dead], ?_, h'⟩
    rw [List.map_append, runAll_append_eq_ok_iff]
    exact ⟨w, deads, [dead], hrun, runAll_cons_of hstep rfl, rfl⟩

/-- What a tick drops: the values that the wheel held, and holds no more. -/
theorem Turning.mem_dropped_iff (h : Turning timeout beats w) {dead : List α}
    (htick : w.wheelCallback = .ok (w', dead)) (v : α) : v ∈ dead ↔ w.Holds v ∧ ¬ w'.Holds v := by
  have hlt : w.next.toNat < w.wheel_.length := by
    rw [h.length]
    exact h.next_lt
  rw [wheelCallback_of_lt (by rw [h.set]; exact h.pos) hlt] at htick
  cases htick
  simp only [List.mem_filter, Finset.mem_sort, decide_eq_true_eq]
  refine and_congr_left fun hgone => ⟨fun hv => ⟨_, List.getElem_mem hlt, hv⟩, ?_⟩
  rintro ⟨slot, hslot, hv⟩
  obtain ⟨j, hj⟩ := List.getElem?_of_mem hslot
  by_cases heq : w.next.toNat = j
  · obtain ⟨_, hget⟩ := List.getElem?_eq_some_iff.mp hj
    subst heq
    rwa [hget]
  · refine absurd ⟨slot, List.mem_of_getElem? (i := j) ?_, hv⟩ hgone
    rw [TimerWheel.ticked, List.getElem?_set_ne heq]
    exact hj

/-- **A value is dropped at the tick that completes the timeout** since its latest insert. -/
theorem Turning.dropped_iff (h : Turning timeout beats w) : ∃ w' dead, w.wheelCallback = .ok (w', dead) ∧
    Turning timeout (beats ++ [.tick]) w' ∧ ∀ v, v ∈ dead ↔ age v beats = some (timeout.toNat - 1) := by
  obtain ⟨w', dead, htick, h'⟩ := h.step .tick
  refine ⟨w', dead, htick, h', fun v => ?_⟩
  have hage : age v (beats ++ [.tick]) = (age v beats).map (· + 1) := by
    rw [age, age, ages_concat, List.head?_map]
  have hpos : 0 < timeout.toNat := UInt32.pos_iff_ne_zero.mpr h.pos
  rw [h.mem_dropped_iff htick, h.holds_iff, h'.holds_iff, hage]
  cases age v beats with
  | none => simp
  | some k =>
    simp only [Option.some.injEq, exists_eq_left', Option.map_some]
    omega

end TimerWheel

end UvCpp
