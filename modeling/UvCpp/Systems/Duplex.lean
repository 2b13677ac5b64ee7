import UvCpp.Systems.Run

/-!
# Two parties and two streams

Two parties talk over a stream each way. What one of them writes is under way until it has
arrived, and it arrives in chunks, cut anywhere, at any time. `Duplex` is the two parties with
what is under way; a step delivers a chunk, or the left party does something of its own.

A step may fault, and not every step can be taken everywhere (`Steps`). An invariant that every
step keeps that can be taken, without a fault, holds wherever a run leads, and there is no fault
there either (`Run.safe`).
-/

namespace UvCpp.Systems

open UvCpp.Cpp

/-! ### Steps that may fault -/

section

variable {σ α : Type} {step : σ → α → Exec σ} {Allows : σ → α → Prop}

/-- The steps of a system that computes them, and may fault, where they can be taken. -/
def Steps (step : σ → α → Exec σ) (Allows : σ → α → Prop) (s : σ) (a : α) (t : σ) : Prop :=
  Allows s a ∧ step s a = .ok t

/-- **Safety.** What every step keeps, without a fault, holds in every run, and the next step does
not fault. What holds may speak of the events so far. -/
theorem Run.safe_events (Inv : List α → σ → Prop) {s t : σ} {as : List α} (h : Run (Steps step Allows) s as t)
    (h0 : Inv [] s)
    (hstep : ∀ as s a, Inv as s → Allows s a → ∃ t, step s a = .ok t ∧ Inv (as ++ [a]) t) :
    Inv as t ∧ ∀ a, Allows t a → Exec.Returns (step t a) := by
  have hinv : Inv as t := by
    refine h.rec_events h0 fun as s a t hs ha => ?_
    obtain ⟨t', ht', hinv⟩ := hstep as s a hs ha.1
    obtain rfl : t = t' := Except.ok.inj (ha.2.symm.trans ht')
    exact hinv
  refine ⟨hinv, fun a ha => ?_⟩
  obtain ⟨u, hu, -⟩ := hstep as t a hinv ha
  exact ⟨u, hu⟩

/-- Safety, of what speaks of the state alone. -/
theorem Run.safe (Inv : σ → Prop) {s t : σ} {as : List α} (h : Run (Steps step Allows) s as t) (h0 : Inv s)
    (hstep : ∀ s a, Inv s → Allows s a → ∃ t, step s a = .ok t ∧ Inv t) :
    Inv t ∧ ∀ a, Allows t a → Exec.Returns (step t a) :=
  h.safe_events (fun _ => Inv) h0 fun _ => hstep

end

/-! ### Parties -/

/-- Two parties, and what is under way between them. -/
structure Duplex (σ τ α : Type) where
  /-- The party on the left. -/
  left : σ
  /-- The party on the right. -/
  right : τ
  /-- What the left party has written and the right one has not received, the oldest first. -/
  toRight : List α
  /-- What the right party has written and the left one has not received. -/
  toLeft : List α

/-- What the parties do: the state a party is left in, and what it writes. -/
structure Parties (σ τ ι α : Type) where
  /-- The left party receives a chunk. -/
  receiveLeft : σ → List α → Exec (σ × List α)
  /-- The right party receives a chunk. -/
  receiveRight : τ → List α → Exec (τ × List α)
  /-- The left party does something of its own. -/
  act : σ → ι → Exec (σ × List α)

namespace Duplex

/-- What happens. -/
inductive Event (ι : Type) where
  /-- The next `n` of what is under way arrive on the right. -/
  | toRight (n : ℕ)
  /-- The next `n` of what is under way arrive on the left. -/
  | toLeft (n : ℕ)
  /-- The left party does something. -/
  | act (a : ι)
  deriving DecidableEq

variable {σ τ ι α : Type}

/-- A step. -/
def step (p : Parties σ τ ι α) (d : Duplex σ τ α) : Event ι → Exec (Duplex σ τ α)
  | .toRight n => do
    let (right, out) ← p.receiveRight d.right (d.toRight.take n)
    .ok ⟨d.left, right, d.toRight.drop n, d.toLeft ++ out⟩
  | .toLeft n => do
    let (left, out) ← p.receiveLeft d.left (d.toLeft.take n)
    .ok ⟨left, d.right, d.toRight ++ out, d.toLeft.drop n⟩
  | .act a => do
    let (left, out) ← p.act d.left a
    .ok ⟨left, d.right, d.toRight ++ out, d.toLeft⟩

/-- What arrives is something, and was under way. -/
def Arrives (d : Duplex σ τ α) : Event ι → Prop
  | .toRight n => 0 < n ∧ n ≤ d.toRight.length
  | .toLeft n => 0 < n ∧ n ≤ d.toLeft.length
  | .act _ => True

instance (d : Duplex σ τ α) (e : Event ι) : Decidable (d.Arrives e) :=
  match e with
  | .toRight n => inferInstanceAs (Decidable (0 < n ∧ n ≤ d.toRight.length))
  | .toLeft n => inferInstanceAs (Decidable (0 < n ∧ n ≤ d.toLeft.length))
  | .act _ => isTrue trivial

variable {p : Parties σ τ ι α} {d : Duplex σ τ α}

theorem step_toRight {n : ℕ} {right : τ} {out : List α}
    (h : p.receiveRight d.right (d.toRight.take n) = .ok (right, out)) :
    d.step p (.toRight n) = .ok ⟨d.left, right, d.toRight.drop n, d.toLeft ++ out⟩ := by
  rw [step, h]
  rfl

theorem step_toLeft {n : ℕ} {left : σ} {out : List α}
    (h : p.receiveLeft d.left (d.toLeft.take n) = .ok (left, out)) :
    d.step p (.toLeft n) = .ok ⟨left, d.right, d.toRight ++ out, d.toLeft.drop n⟩ := by
  rw [step, h]
  rfl

theorem step_act {a : ι} {left : σ} {out : List α} (h : p.act d.left a = .ok (left, out)) :
    d.step p (.act a) = .ok ⟨left, d.right, d.toRight ++ out, d.toLeft⟩ := by
  rw [step, h]
  rfl

/-- What a chunk that arrives on the right changes. -/
theorem eq_of_step_toRight {d' : Duplex σ τ α} {n : ℕ} (h : d.step p (.toRight n) = .ok d') :
    d'.left = d.left ∧ d'.toRight = d.toRight.drop n := by
  rw [step, Exec.bind_eq_ok_iff] at h
  obtain ⟨⟨right, out⟩, -, hd⟩ := h
  cases hd
  exact ⟨rfl, rfl⟩

/-- What a chunk that arrives on the left changes. -/
theorem eq_of_step_toLeft {d' : Duplex σ τ α} {n : ℕ} (h : d.step p (.toLeft n) = .ok d') :
    d'.right = d.right ∧ d'.toLeft = d.toLeft.drop n := by
  rw [step, Exec.bind_eq_ok_iff] at h
  obtain ⟨⟨left, out⟩, -, hd⟩ := h
  cases hd
  exact ⟨rfl, rfl⟩

/-- What arrives was under way. -/
theorem Arrives.toRight_ne_nil {n : ℕ} (h : d.Arrives (.toRight n : Event ι)) : d.toRight ≠ [] :=
  List.ne_nil_of_length_pos (Nat.lt_of_lt_of_le h.1 h.2)

theorem Arrives.toLeft_ne_nil {n : ℕ} (h : d.Arrives (.toLeft n : Event ι)) : d.toLeft ≠ [] :=
  List.ne_nil_of_length_pos (Nat.lt_of_lt_of_le h.1 h.2)

end Duplex

end UvCpp.Systems
