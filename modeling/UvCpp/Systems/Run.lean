import UvCpp.Cpp.Exec
import Mathlib.Data.List.Induction

/-!
# Runs

Two readings of a program that takes one step after another.

A *machine* is a function: a step takes a state and an input to a new state and an
output, or faults. `runAll` runs a machine on a list of inputs; that a run returns
is something to prove. `AllSteps` says of a run what each of its steps starts from.

A *system* is a relation: from a state, an event leads to a next state. `Run` is a
finite sequence of events from a state, and what holds at the start and is kept by
every step holds wherever a run leads (`Run.invariant`, and `Run.rec_events` when
what holds speaks of the events so far).
-/

namespace UvCpp.Systems

open UvCpp.Cpp

variable {σ α ο : Type}

/-! ### Machines -/

/-- Run a machine on a list of inputs, collecting the outputs. -/
def runAll (step : σ → α → Exec (σ × ο)) : σ → List α → Exec (σ × List ο)
  | s, [] => .ok (s, [])
  | s, a :: as => do
    let r ← step s a
    let rs ← runAll step r.1 as
    .ok (rs.1, r.2 :: rs.2)

variable {step : σ → α → Exec (σ × ο)}

@[simp] theorem runAll_nil (s : σ) : runAll step s [] = .ok (s, []) := rfl

theorem runAll_cons_of {s t u : σ} {a : α} {as : List α} {o : ο} {os : List ο}
    (h : step s a = .ok (t, o)) (hs : runAll step t as = .ok (u, os)) :
    runAll step s (a :: as) = .ok (u, o :: os) := by
  simp [runAll, h, hs]

theorem runAll_cons_eq_ok_iff {s u : σ} {a : α} {as : List α} {os : List ο} :
    runAll step s (a :: as) = .ok (u, os) ↔
      ∃ t o os', step s a = .ok (t, o) ∧ runAll step t as = .ok (u, os') ∧ os = o :: os' := by
  simp only [runAll, Exec.bind_eq_ok_iff, Prod.exists, Except.ok.injEq, Prod.mk.injEq]
  constructor
  · rintro ⟨t, o, h, u', os', hs, rfl, rfl⟩
    exact ⟨t, o, os', h, hs, rfl⟩
  · rintro ⟨t, o, os', h, hs, rfl⟩
    exact ⟨t, o, h, u, os', hs, rfl, rfl⟩

/-- A run on inputs put together is two runs, one after the other. -/
theorem runAll_append_eq_ok_iff {s u : σ} {as bs : List α} {os : List ο} :
    runAll step s (as ++ bs) = .ok (u, os) ↔
      ∃ t os₁ os₂, runAll step s as = .ok (t, os₁) ∧ runAll step t bs = .ok (u, os₂) ∧
        os = os₁ ++ os₂ := by
  induction as generalizing s os with
  | nil => simp
  | cons a as ih =>
    rw [List.cons_append, runAll_cons_eq_ok_iff]
    constructor
    · rintro ⟨t, o, os', h, hs, rfl⟩
      obtain ⟨t', os₁, os₂, h1, h2, rfl⟩ := ih.mp hs
      exact ⟨t', o :: os₁, os₂, runAll_cons_of h h1, h2, rfl⟩
    · rintro ⟨t, os₁, os₂, h1, h2, rfl⟩
      obtain ⟨t', o, os', h, hs, rfl⟩ := runAll_cons_eq_ok_iff.mp h1
      exact ⟨t', o, os' ++ os₂, h, ih.mpr ⟨t, os', os₂, hs, h2, rfl⟩, rfl⟩

/-- One output for each input. -/
theorem length_of_runAll {s t : σ} {as : List α} {os : List ο} (h : runAll step s as = .ok (t, os)) :
    os.length = as.length := by
  induction as generalizing s os with
  | nil => cases h; rfl
  | cons a as ih =>
    obtain ⟨_, _, _, -, hs, rfl⟩ := runAll_cons_eq_ok_iff.mp h
    simp [ih hs]

/-- **Invariance.** What holds at the start and is kept by every step holds at the end of every
run. -/
theorem runAll_invariant {Inv : σ → Prop} (hstep : ∀ s a t o, Inv s → step s a = .ok (t, o) → Inv t)
    {s t : σ} {as : List α} {os : List ο} (h : runAll step s as = .ok (t, os)) (h0 : Inv s) : Inv t := by
  induction as generalizing s os with
  | nil =>
    cases h
    exact h0
  | cons a as ih =>
    obtain ⟨u, o, os', ha, has, rfl⟩ := runAll_cons_eq_ok_iff.mp h
    exact ih has (hstep s a u o h0 ha)

/-- What a machine puts out on a list of inputs, up to a step that faults. -/
def outputs (step : σ → α → Exec (σ × ο)) : σ → List α → List ο
  | _, [] => []
  | s, a :: as =>
    match step s a with
    | .ok (t, o) => o :: outputs step t as
    | .error _ => []

theorem outputs_cons_of {s t : σ} {a : α} {as : List α} {o : ο} (h : step s a = .ok (t, o)) :
    outputs step s (a :: as) = o :: outputs step t as := by
  rw [outputs, h]

/-- A run that does not fault puts out its outputs, and then what follows from its end. -/
theorem outputs_append {s t : σ} {as bs : List α} {os : List ο} (h : runAll step s as = .ok (t, os)) :
    outputs step s (as ++ bs) = os ++ outputs step t bs := by
  induction as generalizing s os with
  | nil =>
    cases h
    rfl
  | cons a as ih =>
    obtain ⟨u, o, os', ha, has, rfl⟩ := runAll_cons_eq_ok_iff.mp h
    rw [List.cons_append, outputs_cons_of ha, ih has]
    rfl

/-- `Ok` holds of the state every step of a run starts in, and of its input. -/
def AllSteps (step : σ → α → Exec (σ × ο)) (Ok : σ → α → Prop) (s : σ) (as : List α) : Prop :=
  ∀ before a after t os, as = before ++ a :: after → runAll step s before = .ok (t, os) → Ok t a

theorem AllSteps.nil {Ok : σ → α → Prop} {s : σ} : AllSteps step Ok s [] := by
  rintro before a after t os h -
  simp at h

theorem AllSteps.cons {Ok : σ → α → Prop} {s : σ} {a : α} {as : List α} (ha : Ok s a)
    (has : ∀ t o, step s a = .ok (t, o) → AllSteps step Ok t as) : AllSteps step Ok s (a :: as) := by
  rintro before b after t os h hrun
  cases before with
  | nil =>
    cases hrun
    cases h
    exact ha
  | cons c before =>
    rw [List.cons_append, List.cons.injEq] at h
    obtain ⟨rfl, hsplit⟩ := h
    obtain ⟨u, o, os', hu, hbefore, -⟩ := runAll_cons_eq_ok_iff.mp hrun
    exact has u o hu before b after t os' hsplit hbefore

theorem AllSteps.cons_of {Ok : σ → α → Prop} {s t : σ} {a : α} {o : ο} {as : List α} (ha : Ok s a)
    (h : step s a = .ok (t, o)) (has : AllSteps step Ok t as) : AllSteps step Ok s (a :: as) := by
  refine .cons ha fun t' o' h' => ?_
  rw [h] at h'
  cases h'
  exact has

theorem AllSteps.head {Ok : σ → α → Prop} {s : σ} {a : α} {as : List α}
    (h : AllSteps step Ok s (a :: as)) : Ok s a := h [] a as s [] rfl rfl

theorem AllSteps.tail {Ok : σ → α → Prop} {s t : σ} {a : α} {o : ο} {as : List α}
    (h : AllSteps step Ok s (a :: as)) (ha : step s a = .ok (t, o)) :
    AllSteps step Ok t as := by
  rintro before b after u os rfl hrun
  exact h (a :: before) b after u (o :: os) rfl (runAll_cons_of ha hrun)

/-- Two demands on the steps of a run agree if they agree on states with an invariant that the
steps meeting them keep. -/
theorem allSteps_congr (Inv : σ → Prop) {Ok Ok' : σ → α → Prop}
    (hiff : ∀ s a, Inv s → (Ok s a ↔ Ok' s a))
    (hstep : ∀ s a t o, Inv s → Ok s a → step s a = .ok (t, o) → Inv t) {s : σ} (h0 : Inv s)
    (as : List α) : AllSteps step Ok s as ↔ AllSteps step Ok' s as := by
  induction as generalizing s with
  | nil => exact iff_of_true .nil .nil
  | cons a as ih =>
    constructor
    · intro h
      refine .cons ((hiff s a h0).mp h.head) fun t o ha => ?_
      exact (ih (hstep s a t o h0 h.head ha)).mp (h.tail ha)
    · intro h
      have hok : Ok s a := (hiff s a h0).mpr h.head
      refine .cons hok fun t o ha => ?_
      exact (ih (hstep s a t o h0 hok ha)).mpr (h.tail ha)

/-! ### Systems -/

/-- A run of a system: the events that led from one state to another, in order. -/
inductive Run (step : σ → α → σ → Prop) : σ → List α → σ → Prop where
  /-- Nothing has happened. -/
  | nil (s : σ) : Run step s [] s
  /-- One more event. -/
  | snoc {s t u : σ} {as : List α} {a : α} : Run step s as t → step t a u → Run step s (as ++ [a]) u

namespace Run

variable {step : σ → α → σ → Prop} {s t : σ} {as : List α}

/-- **Invariance.** What holds at the start and is kept by every step holds at the end of
every run. -/
theorem invariant {Inv : σ → Prop} (h : Run step s as t) (h0 : Inv s)
    (hstep : ∀ t a u, Inv t → step t a u → Inv u) : Inv t := by
  induction h with
  | nil => exact h0
  | snoc _ ha ih => exact hstep _ _ _ ih ha

/-- Invariance of what speaks of the events so far. -/
theorem rec_events {Inv : List α → σ → Prop} (h : Run step s as t) (h0 : Inv [] s)
    (hstep : ∀ as t a u, Inv as t → step t a u → Inv (as ++ [a]) u) : Inv as t := by
  induction h with
  | nil => exact h0
  | snoc _ ha ih => exact hstep _ _ _ _ ih ha

/-- The last step of a run. -/
theorem exists_last {a : α} (h : Run step s (as ++ [a]) t) : ∃ u, Run step s as u ∧ step u a t := by
  generalize heq : as ++ [a] = bs at h
  cases h with
  | nil => simp at heq
  | snoc hrun hstep =>
    obtain ⟨rfl, hlast⟩ := List.append_inj' heq rfl
    cases hlast
    exact ⟨_, hrun, hstep⟩

/-- The beginning of a run. -/
theorem exists_before {bs : List α} (h : Run step s (as ++ bs) t) : ∃ u, Run step s as u := by
  induction bs using List.reverseRecOn generalizing t with
  | nil => exact ⟨t, by rwa [List.append_nil] at h⟩
  | append_singleton bs b ih =>
    rw [← List.append_assoc] at h
    obtain ⟨u, hu, -⟩ := h.exists_last
    exact ih hu

/-- A run of a system that allows less is a run of one that allows more. -/
theorem mono {step' : σ → α → σ → Prop} (hle : ∀ s a t, step s a t → step' s a t)
    (h : Run step s as t) : Run step' s as t := by
  induction h with
  | nil => exact .nil _
  | snoc _ ha ih => exact .snoc ih (hle _ _ _ ha)

/-- **Simulation.** Seen through `view`, an event is one of another system, which `label` names, or
it is none and nothing is seen to change. -/
theorem simulates {τ β : Type} {step' : τ → β → τ → Prop} (view : σ → τ) (label : α → Option β)
    (hsome : ∀ s a t b, step s a t → label a = some b → step' (view s) b (view t))
    (hnone : ∀ s a t, step s a t → label a = none → view s = view t) (h : Run step s as t) :
    Run step' (view s) (as.filterMap label) (view t) := by
  induction h with
  | nil => exact .nil _
  | @snoc t u as a _ ha ih =>
    rw [List.filterMap_append]
    cases hlabel : label a with
    | none =>
      rw [← hnone t a u ha hlabel]
      simpa [hlabel] using ih
    | some b =>
      rw [List.filterMap_cons_some hlabel]
      exact .snoc ih (hsome t a u b ha hlabel)

/-- A system whose steps are computed runs where computing them leads. -/
theorem of_foldlM {next : σ → α → Option σ} (h : as.foldlM next s = some t) :
    Run (fun s a t => next s a = some t) s as t := by
  induction as using List.reverseRecOn generalizing t with
  | nil =>
    cases h
    exact .nil s
  | append_singleton as a ih =>
    rw [List.foldlM_append] at h
    obtain ⟨u, hu, ha⟩ := Option.bind_eq_some_iff.mp h
    refine .snoc (ih hu) ?_
    simpa using ha

end Run

end UvCpp.Systems
