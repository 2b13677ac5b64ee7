import UvCpp.Systems.Mailbox
import UvCpp.Cpp.Exec
import Mathlib.Logic.Function.Basic

/-!
# Functions posted to the thread of a loop

A thread posts a function by pushing it under the mutex and then, in a second step, sending on the
async handle of libuv; libuv runs `process` on the thread of the loop, one callback for any number
of sends. `process` swaps the queue for an empty one and runs what it took, while other threads,
and the functions themselves, post more.

`AsyncSystem` is an `Async` with the threads that use it, `outcome` one atomic step of one of them.
The handle can be used from `uv_async_init` until it is deleted. `init` assigns it before that, so
that a thread which posts at that moment sends on memory that is not initialised
(`not_fifo_and_attended`).

If no thread does, the functions are run in the order they were pushed, as of a mailbox
(`mailbox_of_run`), and once `init` has returned a function that waits has a send after it that is
still to be served, or is about to get one (`fifo_and_attended`).
-/

namespace UvCpp

open UvCpp.Cpp UvCpp.Systems

variable {τ φ : Type}

/-- `uv_async_t`, as far as its life goes. -/
inductive UvAsync where
  /-- `uv_async_init` has not been called. -/
  | allocated
  /-- It is open. -/
  | active
  /-- `uv_close` has been called. -/
  | closing
  /-- It has been closed, and deleted. -/
  | deleted
  deriving DecidableEq

/-- `uv::Async`. -/
structure Async (φ : Type) where
  /-- The handle, and what has become of it. -/
  handle_ : Option UvAsync
  /-- The functions that wait for `process`. -/
  callbacks_ : List φ

/-- Where a thread is in `runInThisLoop`. -/
inductive Position where
  /-- Nowhere in it. -/
  | outside
  /-- It has pushed its function when `process` had swapped `swaps` times, and looks at the handle
  next. -/
  | pushed (swaps : ℕ)
  /-- It has found a handle, and sends next. -/
  | sending (swaps : ℕ)
  deriving DecidableEq

/-- Where the thread of the loop is in `init` or `process`. -/
inductive Activity (τ φ : Type) where
  /-- In neither. -/
  | none
  /-- `init` has assigned `handle_`, and calls `uv_async_init` next. -/
  | allocated (t : τ)
  /-- `init` sends next. -/
  | initialised (t : τ)
  /-- `process` has been called, and swaps next. -/
  | woken (t : τ)
  /-- `process` is at the head of its loop. -/
  | draining (t : τ) (callbacks : List φ)
  /-- `process` runs the first of its functions. -/
  | calling (t : τ) (callbacks : List φ)

/-- What `process` has taken out of the queue and has not begun to run. -/
def Activity.batch : Activity τ φ → List φ
  | .draining _ callbacks => callbacks
  | .calling _ callbacks => callbacks.tail
  | _ => []

/-- The thread of the loop, while it cannot begin anything else: in `init`, and in `process` except
from within a function. -/
def Activity.busy : Activity τ φ → Option τ
  | .none => .none
  | .calling _ _ => .none
  | .allocated t => some t
  | .initialised t => some t
  | .woken t => some t
  | .draining t _ => some t

/-- `process` is running. -/
def Activity.InProcess : Activity τ φ → Prop
  | .woken _ | .draining _ _ | .calling _ _ => True
  | _ => False

/-- An `Async`, and those who use it. -/
structure AsyncSystem (τ φ : Type) where
  /-- The object. -/
  async : Async φ
  /-- For every send that libuv has not served by a callback, how often `process` had swapped when
  it was made; the oldest first. -/
  sends : List ℕ
  /-- How often `process` has swapped. -/
  swaps : ℕ
  /-- Where every thread is. -/
  position : τ → Position
  /-- Where the thread of the loop is. -/
  activity : Activity τ φ

namespace AsyncSystem

/-- What a thread does next. -/
inductive Event (τ φ : Type) where
  /-- `runInThisLoop`: the push. -/
  | push (t : τ) (callback : φ)
  /-- `runInThisLoop`: the test of `handle_`. -/
  | test (t : τ)
  /-- `runInThisLoop`: the send. -/
  | send (t : τ)
  /-- `init`: the test of `handle_`, and the allocation. -/
  | init (t : τ)
  /-- `init`: `uv_async_init`. -/
  | asyncInit (t : τ)
  /-- `init`: the send. -/
  | initSend (t : τ)
  /-- libuv runs `Callback`, which serves the `k` oldest sends. -/
  | wake (t : τ) (k : ℕ)
  /-- `process`: the swap. -/
  | swap (t : τ)
  /-- `process`: a function begins. -/
  | call (t : τ) (callback : φ)
  /-- `process`: it returns, and is popped. -/
  | ret (t : τ)
  /-- `process` returns. -/
  | finish (t : τ)
  /-- `close`. -/
  | close (t : τ)
  /-- libuv has closed the handle; `onCloseCompleted` runs, and the handle is deleted. -/
  | closed (t : τ)
  deriving DecidableEq

/-- A new `Async`. -/
def new : AsyncSystem τ φ := ⟨⟨none, []⟩, [], 0, fun _ => .outside, .none⟩

/-- The handle can be used: it has been initialised, and not deleted. -/
def Usable (w : AsyncSystem τ φ) : Bool :=
  w.async.handle_ = some .active ∨ w.async.handle_ = some .closing

/-- What comes of a send: there is nothing for libuv to serve unless the handle is open. -/
def sent (w : AsyncSystem τ φ) : AsyncSystem τ φ :=
  if w.async.handle_ = some .active then { w with sends := w.sends ++ [w.swaps] } else w

/-- `uv_async_send`. -/
def uv_async_send (w : AsyncSystem τ φ) : Exec (AsyncSystem τ φ) :=
  if w.Usable then .ok w.sent else .error .undefined

/-- What comes of `uv_close`: the callback is not run any more. A handle that is closing is left
alone. -/
def shut (w : AsyncSystem τ φ) : AsyncSystem τ φ :=
  if w.async.handle_ = some .active then
    { w with async.handle_ := some .closing, sends := [] }
  else w

/-- `close`: `uv_is_closing` looks at the handle. -/
def close (w : AsyncSystem τ φ) : Exec (AsyncSystem τ φ) :=
  if w.Usable then .ok w.shut else .error .undefined

/-- The functions that have been pushed and have not begun to run. -/
def waiting (w : AsyncSystem τ φ) : List φ := w.activity.batch ++ w.async.callbacks_

theorem usable_iff {w : AsyncSystem τ φ} :
    w.Usable ↔ w.async.handle_ = some .active ∨ w.async.handle_ = some .closing := by
  simp [Usable]

theorem uv_async_send_eq_ok_iff {w v : AsyncSystem τ φ} :
    w.uv_async_send = .ok v ↔ w.Usable ∧ v = w.sent := by
  rw [uv_async_send]
  by_cases husable : w.Usable
  · simp [husable, eq_comm]
  · simp [husable]

theorem close_eq_ok_iff {w v : AsyncSystem τ φ} : w.close = .ok v ↔ w.Usable ∧ v = w.shut := by
  rw [close]
  by_cases husable : w.Usable
  · simp [husable, eq_comm]
  · simp [husable]

@[simp] theorem async_sent (w : AsyncSystem τ φ) : w.sent.async = w.async := by
  rw [sent]
  split <;> rfl

@[simp] theorem position_sent (w : AsyncSystem τ φ) : w.sent.position = w.position := by
  rw [sent]
  split <;> rfl

@[simp] theorem swaps_sent (w : AsyncSystem τ φ) : w.sent.swaps = w.swaps := by
  rw [sent]
  split <;> rfl

@[simp] theorem activity_sent (w : AsyncSystem τ φ) :
    w.sent.activity = w.activity := by
  rw [sent]
  split <;> rfl

theorem mem_sends_sent {w : AsyncSystem τ φ} (hopen : w.async.handle_ = some .active) :
    w.swaps ∈ w.sent.sends := by
  rw [sent, if_pos hopen]
  exact List.mem_append_right _ List.mem_cons_self

@[simp] theorem position_shut (w : AsyncSystem τ φ) : w.shut.position = w.position := by
  rw [shut]
  split <;> rfl

@[simp] theorem activity_shut (w : AsyncSystem τ φ) : w.shut.activity = w.activity := by
  rw [shut]
  split <;> rfl

@[simp] theorem waiting_shut (w : AsyncSystem τ φ) : w.shut.waiting = w.waiting := by
  rw [shut]
  split <;> rfl

variable [DecidableEq τ]

/-- A thread moves. -/
def setPosition (w : AsyncSystem τ φ) (t : τ) (p : Position) : AsyncSystem τ φ :=
  { w with position := Function.update w.position t p }

@[simp] theorem waiting_setPosition (w : AsyncSystem τ φ) (t : τ) (p : Position) :
    (w.setPosition t p).waiting = w.waiting := rfl

/-- What a step comes to, if it can happen. What the thread of the loop does in `init` and `process`
waits for what is called from there; `process` is not entered twice. -/
def outcome [DecidableEq φ] (w : AsyncSystem τ φ) : Event τ φ → Option (Exec (AsyncSystem τ φ))
  | .push t callback =>
    if w.position t = .outside ∧ w.activity.busy ≠ some t then
      some (.ok ({ w with async.callbacks_ := w.async.callbacks_ ++ [callback] }.setPosition t
        (.pushed w.swaps)))
    else none
  | .test t =>
    match w.position t with
    | .pushed swaps =>
      some (.ok (w.setPosition t (if w.async.handle_ = none then .outside else .sending swaps)))
    | _ => none
  | .send t =>
    match w.position t with
    | .sending _ => some do
      let w ← w.uv_async_send
      .ok (w.setPosition t .outside)
    | _ => none
  | .init t =>
    match w.activity with
    | .none =>
      if w.position t = .outside then
        some (.ok (if w.async.handle_ = none then
          { w with async.handle_ := some .allocated, activity := .allocated t } else w))
      else none
    | _ => none
  | .asyncInit t =>
    match w.activity with
    | .allocated u =>
      if t = u then
        some (.ok { w with async.handle_ := some .active, activity := .initialised t })
      else none
    | _ => none
  | .initSend t =>
    match w.activity with
    | .initialised u =>
      if t = u then some do
        let w ← w.uv_async_send
        .ok { w with activity := .none }
      else none
    | _ => none
  | .wake t k =>
    match w.activity with
    | .none =>
      if w.position t = .outside ∧ w.async.handle_ = some .active ∧ 0 < k ∧ k ≤ w.sends.length then
        some (.ok { w with sends := w.sends.drop k, activity := .woken t })
      else none
    | _ => none
  | .swap t =>
    match w.activity with
    | .woken u =>
      if t = u then
        some (.ok { w with async.callbacks_ := [], swaps := w.swaps + 1
                           activity := .draining t w.async.callbacks_ })
      else none
    | _ => none
  | .call t callback =>
    match w.activity with
    | .draining u (f :: fs) =>
      if t = u ∧ callback = f then some (.ok { w with activity := .calling t (f :: fs) }) else none
    | _ => none
  | .ret t =>
    match w.activity with
    | .calling u callbacks =>
      if t = u ∧ w.position t = .outside then
        some (.ok { w with activity := .draining t callbacks.tail })
      else none
    | _ => none
  | .finish t =>
    match w.activity with
    | .draining u [] => if t = u then some (.ok { w with activity := .none }) else none
    | _ => none
  | .close t =>
    if w.position t = .outside ∧ w.activity.busy ≠ some t then some w.close else none
  | .closed t =>
    match w.activity with
    | .none =>
      if w.position t = .outside ∧ w.async.handle_ = some .closing then
        some (.ok { w with async.handle_ := some .deleted })
      else none
    | _ => none

/-- A step that can happen, and does not fault. -/
def step [DecidableEq φ] (w : AsyncSystem τ φ) (e : Event τ φ) : Option (AsyncSystem τ φ) :=
  (w.outcome e).bind Except.toOption

/-- What a step does. -/
inductive Moves (w : AsyncSystem τ φ) : Event τ φ → AsyncSystem τ φ → Prop where
  | push {t : τ} (f : φ) (hout : w.position t = .outside) (hbusy : w.activity.busy ≠ some t) :
      Moves w (.push t f)
        ({ w with async.callbacks_ := w.async.callbacks_ ++ [f] }.setPosition t (.pushed w.swaps))
  | test_none {t : τ} {k : ℕ} (hpos : w.position t = .pushed k) (hnone : w.async.handle_ = none) :
      Moves w (.test t) (w.setPosition t .outside)
  | test_some {t : τ} {k : ℕ} (hpos : w.position t = .pushed k) (hsome : w.async.handle_ ≠ none) :
      Moves w (.test t) (w.setPosition t (.sending k))
  | send {t : τ} {k : ℕ} (hpos : w.position t = .sending k) (husable : w.Usable) :
      Moves w (.send t) (w.sent.setPosition t .outside)
  | init_none {t : τ} (hidle : w.activity = .none) (hnone : w.async.handle_ = none) :
      Moves w (.init t) { w with async.handle_ := some .allocated, activity := .allocated t }
  | init_some {t : τ} (hidle : w.activity = .none) (hsome : w.async.handle_ ≠ none) :
      Moves w (.init t) w
  | asyncInit {t : τ} (hact : w.activity = .allocated t) :
      Moves w (.asyncInit t) { w with async.handle_ := some .active, activity := .initialised t }
  | initSend {t : τ} (hact : w.activity = .initialised t) :
      Moves w (.initSend t) { w.sent with activity := .none }
  | wake {t : τ} {k : ℕ} (hidle : w.activity = .none) (hopen : w.async.handle_ = some .active)
      (hk : 0 < k) (hle : k ≤ w.sends.length) :
      Moves w (.wake t k) { w with sends := w.sends.drop k, activity := .woken t }
  | swap {t : τ} (hact : w.activity = .woken t) :
      Moves w (.swap t) { w with async.callbacks_ := [], swaps := w.swaps + 1
                                 activity := .draining t w.async.callbacks_ }
  | call {t : τ} {f : φ} {fs : List φ} (hact : w.activity = .draining t (f :: fs)) :
      Moves w (.call t f) { w with activity := .calling t (f :: fs) }
  | ret {t : τ} {callbacks : List φ} (hact : w.activity = .calling t callbacks) :
      Moves w (.ret t) { w with activity := .draining t callbacks.tail }
  | finish {t : τ} (hact : w.activity = .draining t []) :
      Moves w (.finish t) { w with activity := .none }
  | close {t : τ} (husable : w.Usable) : Moves w (.close t) w.shut
  | closed {t : τ} (hidle : w.activity = .none) (hclosing : w.async.handle_ = some .closing) :
      Moves w (.closed t) { w with async.handle_ := some .deleted }

variable {w w' : AsyncSystem τ φ} {e : Event τ φ} {events : List (Event τ φ)}

theorem moves_of_outcome [DecidableEq φ] (h : w.outcome e = some (.ok w')) : w.Moves e w' := by
  cases e with
  | push t f =>
    simp only [outcome, Option.ite_none_right_eq_some, Option.some.injEq, Except.ok.injEq] at h
    obtain ⟨⟨hout, hbusy⟩, rfl⟩ := h
    exact .push f hout hbusy
  | test t =>
    simp only [outcome] at h
    split at h
    · next k hpos =>
      cases h
      split
      · next hnone => exact .test_none hpos hnone
      · next hsome => exact .test_some hpos hsome
    · cases h
  | send t =>
    simp only [outcome] at h
    split at h
    · next k hpos =>
      simp only [Option.some.injEq, Exec.bind_eq_ok_iff, Except.ok.injEq] at h
      obtain ⟨v, hsend, rfl⟩ := h
      obtain ⟨husable, rfl⟩ := uv_async_send_eq_ok_iff.mp hsend
      exact .send hpos husable
    · cases h
  | init t =>
    simp only [outcome] at h
    split at h
    · next hidle =>
      simp only [Option.ite_none_right_eq_some, Option.some.injEq, Except.ok.injEq] at h
      obtain ⟨-, rfl⟩ := h
      split
      · next hnone => exact .init_none hidle hnone
      · next hsome => exact .init_some hidle hsome
    · cases h
  | asyncInit t =>
    simp only [outcome] at h
    split at h
    · next u hact =>
      simp only [Option.ite_none_right_eq_some, Option.some.injEq, Except.ok.injEq] at h
      obtain ⟨rfl, rfl⟩ := h
      exact .asyncInit hact
    · cases h
  | initSend t =>
    simp only [outcome] at h
    split at h
    · next u hact =>
      simp only [Option.ite_none_right_eq_some, Option.some.injEq, Exec.bind_eq_ok_iff, Except.ok.injEq] at h
      obtain ⟨rfl, v, hsend, rfl⟩ := h
      obtain ⟨-, rfl⟩ := uv_async_send_eq_ok_iff.mp hsend
      exact .initSend hact
    · cases h
  | wake t k =>
    simp only [outcome] at h
    split at h
    · next hidle =>
      simp only [Option.ite_none_right_eq_some, Option.some.injEq, Except.ok.injEq] at h
      obtain ⟨⟨-, hopen, hk, hle⟩, rfl⟩ := h
      exact .wake hidle hopen hk hle
    · cases h
  | swap t =>
    simp only [outcome] at h
    split at h
    · next u hact =>
      simp only [Option.ite_none_right_eq_some, Option.some.injEq, Except.ok.injEq] at h
      obtain ⟨rfl, rfl⟩ := h
      exact .swap hact
    · cases h
  | call t f =>
    simp only [outcome] at h
    split at h
    · next u g fs hact =>
      simp only [Option.ite_none_right_eq_some, Option.some.injEq, Except.ok.injEq] at h
      obtain ⟨⟨rfl, rfl⟩, rfl⟩ := h
      exact .call hact
    · cases h
  | ret t =>
    simp only [outcome] at h
    split at h
    · next u fs hact =>
      simp only [Option.ite_none_right_eq_some, Option.some.injEq, Except.ok.injEq] at h
      obtain ⟨⟨rfl, -⟩, rfl⟩ := h
      exact .ret hact
    · cases h
  | finish t =>
    simp only [outcome] at h
    split at h
    · next u hact =>
      simp only [Option.ite_none_right_eq_some, Option.some.injEq, Except.ok.injEq] at h
      obtain ⟨rfl, rfl⟩ := h
      exact .finish hact
    · cases h
  | close t =>
    simp only [outcome, Option.ite_none_right_eq_some, Option.some.injEq] at h
    obtain ⟨husable, rfl⟩ := close_eq_ok_iff.mp h.2
    exact .close husable
  | closed t =>
    simp only [outcome] at h
    split at h
    · next hidle =>
      simp only [Option.ite_none_right_eq_some, Option.some.injEq, Except.ok.injEq] at h
      obtain ⟨⟨-, hclosing⟩, rfl⟩ := h
      exact .closed hidle hclosing
    · cases h

theorem step_eq_some_iff [DecidableEq φ] : w.step e = some w' ↔ w.outcome e = some (.ok w') :=
  Exec.bind_toOption_eq_some_iff

theorem moves_of_step [DecidableEq φ] (h : w.step e = some w') : w.Moves e w' :=
  moves_of_outcome (step_eq_some_iff.mp h)

/-- The events in which the handle is used. -/
def Event.Uses : Event τ φ → Prop
  | .send _ | .initSend _ | .close _ => True
  | _ => False

/-- **When a step faults**: when it uses a handle that cannot be used. -/
theorem returns_outcome_iff [DecidableEq φ] {x : Exec (AsyncSystem τ φ)} (hx : w.outcome e = some x) :
    Exec.Returns x ↔ (e.Uses → w.Usable) := by
  cases e with
  | send t =>
    simp only [outcome] at hx
    split at hx
    · cases hx
      by_cases husable : w.Usable
      · simp [uv_async_send, husable, Event.Uses, Exec.Returns]
      · simp [uv_async_send, husable, Event.Uses, Exec.Returns]
    · cases hx
  | initSend t =>
    simp only [outcome] at hx
    split at hx
    · simp only [Option.ite_none_right_eq_some, Option.some.injEq] at hx
      obtain ⟨-, rfl⟩ := hx
      by_cases husable : w.Usable
      · simp [uv_async_send, husable, Event.Uses, Exec.Returns]
      · simp [uv_async_send, husable, Event.Uses, Exec.Returns]
    · cases hx
  | close t =>
    simp only [outcome, Option.ite_none_right_eq_some, Option.some.injEq] at hx
    obtain ⟨-, rfl⟩ := hx
    by_cases husable : w.Usable
    · simp [close, husable, Event.Uses, Exec.Returns]
    · simp [close, husable, Event.Uses, Exec.Returns]
  | _ =>
    refine iff_of_true ?_ fun huses => False.elim huses
    simp only [outcome] at hx
    split at hx <;> grind [Exec.Returns]

/-! ### In the order of the pushes -/

/-- What an event is to the mailbox. -/
def Event.mail : Event τ φ → Option (Mailbox.Event φ)
  | .push _ callback => some (.post callback)
  | .call _ callback => some (.take callback)
  | _ => none

/-- The function an event pushes. -/
def Event.pushed : Event τ φ → Option φ
  | .push _ callback => some callback
  | _ => none

/-- The function an event runs. -/
def Event.executed : Event τ φ → Option φ
  | .call _ callback => some callback
  | _ => none

/-- A function waits from its push until it is called. -/
theorem Moves.mail (h : w.Moves e w') :
    match e.mail with
    | some m => Mailbox.Step ⟨w.waiting⟩ m ⟨w'.waiting⟩
    | none => w.waiting = w'.waiting := by
  cases h with
  | push f hout hbusy =>
    simp only [Event.mail, waiting_setPosition]
    rw [waiting, waiting, ← List.append_assoc]
    exact .post _ f
  | @call t f fs hact =>
    simp only [Event.mail, waiting, hact]
    exact .take f _
  | initSend hact =>
    simp [Event.mail, waiting, hact, Activity.batch]
  | close husable => simp [Event.mail]
  | send hpos husable => simp [Event.mail, waiting, setPosition]
  | test_none hpos hnone => simp [Event.mail]
  | test_some hpos hsome => simp [Event.mail]
  | init_some hidle hsome => rfl
  | init_none hidle hnone => simp [Event.mail, waiting, hidle, Activity.batch]
  | asyncInit hact => simp [Event.mail, waiting, hact, Activity.batch]
  | wake hidle hopen hk hle => simp [Event.mail, waiting, hidle, Activity.batch]
  | swap hact => simp [Event.mail, waiting, hact, Activity.batch]
  | ret hact => simp [Event.mail, waiting, hact, Activity.batch]
  | finish hact => simp [Event.mail, waiting, hact, Activity.batch]
  | closed hidle hclosing => simp [Event.mail, waiting]

/-- **An `Async` is a mailbox.** -/
theorem mailbox_of_run [DecidableEq φ] {w₀ : AsyncSystem τ φ}
    (h : Run (fun w e w' => step w e = some w') w₀ events w) :
    Run Mailbox.Step ⟨w₀.waiting⟩ (events.filterMap Event.mail) ⟨w.waiting⟩ := by
  refine h.simulates (fun w => Mailbox.mk w.waiting) Event.mail ?_ ?_
  · intro w e w' m hstep hm
    have hmail := (moves_of_step hstep).mail
    rw [hm] at hmail
    exact hmail
  · intro w e w' hstep hm
    have hmail := (moves_of_step hstep).mail
    rw [hm] at hmail
    exact congrArg Mailbox.mk hmail

/-- **First in, first out**: what has been pushed is what has been run, and then what waits. -/
theorem pushed_eq [DecidableEq φ] (h : Run (fun w e w' => step w e = some w') new events w) :
    events.filterMap Event.pushed = events.filterMap Event.executed ++ w.waiting := by
  have hposts := Mailbox.posts_eq (mailbox_of_run h)
  rw [List.filterMap_filterMap, List.filterMap_filterMap] at hposts
  have hpushed : (fun e : Event τ φ => e.mail.bind Mailbox.Event.posted) = Event.pushed := by
    funext e
    cases e <;> rfl
  have hexecuted : (fun e : Event τ φ => e.mail.bind Mailbox.Event.taken) = Event.executed := by
    funext e
    cases e <;> rfl
  rwa [hpushed, hexecuted] at hposts

/-! ### No wake-up is lost -/

/-- A function that waits is attended to: a send made since the last swap is still to be served, or
the thread that pushed a function since then is about to send. -/
def Attended (w : AsyncSystem τ φ) : Prop :=
  w.swaps ∈ w.sends ∨ ∃ t, w.position t = .pushed w.swaps ∨ w.position t = .sending w.swaps

/-- While the handle is open, `init` is done with it, and `process` is not about to take them, the
functions in the queue are attended to. -/
def NoneForgotten (w : AsyncSystem τ φ) : Prop :=
  w.async.handle_ = some .active → (∀ t, w.activity ≠ .initialised t) →
    (∀ t, w.activity ≠ .woken t) → w.async.callbacks_ ≠ [] → w.Attended

/-- A thread that was not about to send moves. -/
theorem Attended.setPosition (h : w.Attended) {t : τ} {p : Position}
    (ht : ∀ k, w.position t = .pushed k ∨ w.position t = .sending k → p = .sending k) :
    (w.setPosition t p).Attended := by
  obtain hsend | ⟨u, hu⟩ := h
  · exact .inl hsend
  · refine .inr ?_
    by_cases hut : u = t
    · subst hut
      exact ⟨u, .inr (by simpa [AsyncSystem.setPosition] using ht _ hu)⟩
    · exact ⟨u, by simpa [AsyncSystem.setPosition, hut] using hu⟩

theorem NoneForgotten.moves (h : w.NoneForgotten) (hstep : w.Moves e w') : w'.NoneForgotten := by
  cases hstep with
  | @push t f hout hbusy =>
    intro _ _ _ _
    exact .inr ⟨t, .inl (by simp [setPosition])⟩
  | test_none hpos hnone =>
    intro hopen
    have hopen : w.async.handle_ = some .active := hopen
    rw [hnone] at hopen
    cases hopen
  | @test_some t k hpos hsome =>
    intro hopen hinit hwoken hne
    refine (h hopen hinit hwoken hne).setPosition fun j hj => ?_
    rw [hpos] at hj
    rcases hj with hj | hj
    · cases hj
      rfl
    · cases hj
  | @send t k hpos husable =>
    intro hopen _ _ _
    have hopen : w.async.handle_ = some .active := by simpa [setPosition] using hopen
    exact .inl (by simpa [setPosition] using mem_sends_sent hopen)
  | init_none hidle hnone =>
    intro hopen
    cases hopen
  | init_some hidle hsome => exact h
  | asyncInit hact =>
    intro _ hinit
    exact absurd rfl (hinit _)
  | initSend hact =>
    intro hopen _ _ _
    have hopen : w.async.handle_ = some .active := by simpa using hopen
    exact .inl (by simpa using mem_sends_sent hopen)
  | wake hidle hopen hk hle =>
    intro _ _ hwoken
    exact absurd rfl (hwoken _)
  | swap hact =>
    intro _ _ _ hne
    exact absurd rfl hne
  | call hact =>
    intro hopen _ _ hne
    exact h hopen (by simp [hact]) (by simp [hact]) hne
  | ret hact =>
    intro hopen _ _ hne
    exact h hopen (by simp [hact]) (by simp [hact]) hne
  | finish hact =>
    intro hopen _ _ hne
    exact h hopen (by simp [hact]) (by simp [hact]) hne
  | close husable =>
    intro hopen
    rw [shut] at hopen
    split at hopen
    · cases hopen
    · next hclosed => exact absurd hopen hclosed
  | closed hidle hclosing =>
    intro hopen
    cases hopen

theorem noneForgotten_of_run [DecidableEq φ] (h : Run (fun w e w' => step w e = some w') new events w) :
    w.NoneForgotten := by
  refine h.invariant ?_ fun w e w' ih hstep => ih.moves (moves_of_step hstep)
  intro hopen
  cases hopen

/-- In the middle of `init` the handle is not initialised. -/
def Allocating (w : AsyncSystem τ φ) : Prop :=
  ∀ t, w.activity = .allocated t → w.async.handle_ = some .allocated

theorem Allocating.moves (h : w.Allocating) (hstep : w.Moves e w') : w'.Allocating := by
  cases hstep with
  | push f hout hbusy => exact h
  | test_none hpos hnone => exact h
  | test_some hpos hsome => exact h
  | send hpos husable => simpa [Allocating, setPosition] using h
  | init_none hidle hnone => exact fun t ht => rfl
  | init_some hidle hsome => exact h
  | asyncInit hact => exact fun t ht => (by cases ht)
  | initSend hact => exact fun t ht => (by cases ht)
  | wake hidle hopen hk hle => exact fun t ht => (by cases ht)
  | swap hact => exact fun t ht => (by cases ht)
  | call hact => exact fun t ht => (by cases ht)
  | ret hact => exact fun t ht => (by cases ht)
  | finish hact => exact fun t ht => (by cases ht)
  | close husable =>
    intro t ht
    have ht : w.activity = .allocated t := by simpa using ht
    rcases usable_iff.mp husable with hhandle | hhandle <;> simp [h t ht] at hhandle
  | closed hidle hclosing =>
    intro t ht
    exact absurd (hidle.symm.trans ht) (by simp)

theorem allocating_of_run [DecidableEq φ] (h : Run (fun w e w' => step w e = some w') new events w) :
    w.Allocating :=
  h.invariant (fun t ht => by cases ht) fun w e w' ih hstep => ih.moves (moves_of_step hstep)

/-- Only in the middle of `init` is the handle not initialised, and when `init` sends it can be used. -/
structure Initialising (w : AsyncSystem τ φ) : Prop where
  /-- It is `init` that has assigned a handle that is not initialised. -/
  allocated : w.async.handle_ = some .allocated → ∃ t, w.activity = .allocated t
  /-- Until it has sent, the handle is not deleted. -/
  initialised : ∀ t, w.activity = .initialised t → w.Usable

omit [DecidableEq τ] in
/-- A step that begins nothing in `init`. -/
theorem Initialising.of_eq (h : w.Initialising) (hhandle : w'.async.handle_ = w.async.handle_)
    (hactivity : w'.activity = w.activity ∨ (∀ t, w.activity ≠ .allocated t) ∧ ∀ t, w'.activity ≠ .initialised t) :
    w'.Initialising := by
  constructor
  · intro halloc
    obtain ⟨t, ht⟩ := h.allocated (hhandle ▸ halloc)
    rcases hactivity with hsame | ⟨hnot, -⟩
    · exact ⟨t, hsame.trans ht⟩
    · exact absurd ht (hnot t)
  · intro t ht
    rcases hactivity with hsame | ⟨-, hnot⟩
    · rw [usable_iff, hhandle, ← usable_iff]
      exact h.initialised t (hsame ▸ ht)
    · exact absurd ht (hnot t)

theorem Initialising.moves (h : w.Initialising) (hstep : w.Moves e w') : w'.Initialising := by
  cases hstep with
  | push f hout hbusy => exact h.of_eq rfl (.inl rfl)
  | test_none hpos hnone => exact h.of_eq rfl (.inl rfl)
  | test_some hpos hsome => exact h.of_eq rfl (.inl rfl)
  | send hpos husable => exact h.of_eq (by simp [setPosition]) (.inl (by simp [setPosition]))
  | @init_none t hidle hnone => exact ⟨fun _ => ⟨t, rfl⟩, fun t ht => by cases ht⟩
  | init_some hidle hsome => exact h
  | asyncInit hact => exact ⟨fun halloc => (by cases halloc), fun _ _ => usable_iff.mpr (.inl rfl)⟩
  | initSend hact => exact h.of_eq (by simp) (.inr (by simp [hact]))
  | wake hidle hopen hk hle => exact h.of_eq rfl (.inr (by simp [hidle]))
  | swap hact => exact h.of_eq rfl (.inr (by simp [hact]))
  | call hact => exact h.of_eq rfl (.inr (by simp [hact]))
  | ret hact => exact h.of_eq rfl (.inr (by simp [hact]))
  | finish hact => exact h.of_eq rfl (.inr (by simp [hact]))
  | close husable =>
    rw [shut]
    split
    · exact ⟨fun halloc => (by cases halloc), fun _ _ => usable_iff.mpr (.inr rfl)⟩
    · exact h
  | closed hidle hclosing =>
    exact ⟨fun halloc => (by cases halloc), fun t ht => absurd (hidle.symm.trans ht) (by simp)⟩

theorem initialising_of_run [DecidableEq φ] (h : Run (fun w e w' => step w e = some w') new events w) :
    w.Initialising :=
  h.invariant ⟨fun halloc => (by cases halloc), fun t ht => by cases ht⟩
    fun w e w' ih hstep => ih.moves (moves_of_step hstep)

/-- The handle has been initialised. -/
def Begun (w : AsyncSystem τ φ) : Prop := w.async.handle_ ≠ none ∧ w.async.handle_ ≠ some .allocated

omit [DecidableEq τ] in
/-- What has been initialised, and not deleted, can be used. -/
theorem Begun.usable (h : w.Begun) (hdeleted : w.async.handle_ ≠ some .deleted) : w.Usable := by
  obtain ⟨hnone, halloc⟩ := h
  rw [usable_iff]
  cases hhandle : w.async.handle_ with
  | none => exact absurd hhandle hnone
  | some handle =>
    cases handle with
    | allocated => exact absurd hhandle halloc
    | active => exact .inl rfl
    | closing => exact .inr rfl
    | deleted => exact absurd hhandle hdeleted

/-- What has been initialised stays so. -/
theorem Begun.moves (h : w.Begun) (hstep : w.Moves e w') : w'.Begun := by
  cases hstep with
  | push f hout hbusy => exact h
  | test_none hpos hnone => exact h
  | test_some hpos hsome => exact h
  | send hpos husable => simpa [Begun, setPosition] using h
  | init_none hidle hnone => exact absurd hnone h.1
  | init_some hidle hsome => exact h
  | asyncInit hact => exact ⟨by simp, by simp⟩
  | initSend hact => simpa [Begun] using h
  | wake hidle hopen hk hle => exact h
  | swap hact => exact h
  | call hact => exact h
  | ret hact => exact h
  | finish hact => exact h
  | close husable =>
    rw [shut]
    split
    · exact ⟨by simp, by simp⟩
    · exact h
  | closed hidle hclosing => exact ⟨by simp, by simp⟩

/-- A thread that is about to send has found a handle. -/
def Found (w : AsyncSystem τ φ) : Prop := ∀ t k, w.position t = .sending k → w.async.handle_ ≠ none

omit [DecidableEq τ] in
/-- A step that neither moves a thread nor takes the handle away. -/
theorem Found.of_position (h : w.Found) (hposition : w'.position = w.position)
    (hhandle : w.async.handle_ ≠ none → w'.async.handle_ ≠ none) : w'.Found := by
  intro t k ht
  rw [hposition] at ht
  exact hhandle (h t k ht)

theorem Found.setPosition (h : w.Found) {t : τ} {p : Position} (ht : ∀ k, p = .sending k → w.async.handle_ ≠ none) :
    (w.setPosition t p).Found := by
  intro u k hu
  by_cases hut : u = t
  · subst hut
    exact ht k (by simpa [AsyncSystem.setPosition] using hu)
  · exact h u k (by simpa [AsyncSystem.setPosition, hut] using hu)

theorem Found.moves (h : w.Found) (hstep : w.Moves e w') : w'.Found := by
  cases hstep with
  | push f hout hbusy =>
    have hqueued : Found { w with async.callbacks_ := w.async.callbacks_ ++ [f] } := h
    exact hqueued.setPosition fun k hk => by cases hk
  | test_none hpos hnone => exact h.setPosition fun k hk => by cases hk
  | test_some hpos hsome => exact h.setPosition fun _ _ => hsome
  | send hpos husable =>
    have hsent : w.sent.Found := h.of_position (by simp) (by simp)
    exact hsent.setPosition fun k hk => by cases hk
  | init_none hidle hnone => exact h.of_position rfl fun _ => by simp
  | init_some hidle hsome => exact h
  | asyncInit hact => exact h.of_position rfl fun _ => by simp
  | initSend hact => exact h.of_position (by simp) (by simp)
  | wake hidle hopen hk hle => exact h.of_position rfl id
  | swap hact => exact h.of_position rfl id
  | call hact => exact h.of_position rfl id
  | ret hact => exact h.of_position rfl id
  | finish hact => exact h.of_position rfl id
  | close husable =>
    refine h.of_position (by simp) fun hsome => ?_
    rw [shut]
    split
    · simp
    · exact hsome
  | closed hidle hclosing => exact h.of_position rfl fun _ => by simp

theorem found_of_run [DecidableEq φ] (h : Run (fun w e w' => step w e = some w') new events w) : w.Found :=
  h.invariant (fun t k ht => by cases ht) fun w e w' ih hstep => ih.moves (moves_of_step hstep)

/-- How far `init` has come, as long as nothing is closed. -/
structure Opening (events : List (Event τ φ)) (w : AsyncSystem τ φ) : Prop where
  /-- When `init` has returned, the handle is open. -/
  returned : (∃ t, .initSend t ∈ events) → w.async.handle_ = some .active ∧ ∀ t, w.activity ≠ .initialised t
  /-- When it sends, the handle is open. -/
  initialised : ∀ t, w.activity = .initialised t → w.async.handle_ = some .active
  /-- Nothing has been closed. -/
  unclosed : w.async.handle_ ≠ some .closing ∧ w.async.handle_ ≠ some .deleted

omit [DecidableEq τ] in
/-- A step other than those of `init`. -/
theorem Opening.of_eq (h : Opening events w) (hhandle : w'.async.handle_ = w.async.handle_)
    (hactivity : ∀ t, w'.activity = .initialised t → w.activity = .initialised t)
    (he : ∀ t, e ≠ .initSend t) : Opening (events ++ [e]) w' := by
  constructor
  · rintro ⟨t, ht⟩
    obtain ht | ht := List.mem_append.mp ht
    · obtain ⟨hopen, hact⟩ := h.returned ⟨t, ht⟩
      exact ⟨hhandle.trans hopen, fun u hu => hact u (hactivity u hu)⟩
    · exact absurd (List.mem_singleton.mp ht).symm (he t)
  · intro t ht
    exact hhandle.trans (h.initialised t (hactivity t ht))
  · rw [hhandle]
    exact h.unclosed

/-- **The step lemma** of `init`. -/
theorem Opening.moves (h : Opening events w) (halloc : w.Allocating) (hstep : w.Moves e w')
    (he : ∀ t, e ≠ .close t) :
    Opening (events ++ [e]) w' := by
  have hnotyet : w.async.handle_ ≠ some .active → ¬ ∃ t, Event.initSend t ∈ events :=
    fun hne hsent => hne (h.returned hsent).1
  cases hstep with
  | push f hout hbusy => exact h.of_eq rfl (by simp [setPosition]) (by simp)
  | test_none hpos hnone => exact h.of_eq rfl (by simp [setPosition]) (by simp)
  | test_some hpos hsome => exact h.of_eq rfl (by simp [setPosition]) (by simp)
  | send hpos husable => exact h.of_eq (by simp [setPosition]) (by simp [setPosition]) (by simp)
  | init_none hidle hnone =>
    refine ⟨fun ⟨t, ht⟩ => ?_, fun t ht => (by cases ht), by simp⟩
    exact absurd ⟨t, by simpa using ht⟩ (hnotyet (by simp [hnone]))
  | init_some hidle hsome => exact h.of_eq rfl (by simp) (by simp)
  | @asyncInit u hact =>
    refine ⟨fun ⟨t, ht⟩ => ?_, fun _ _ => rfl, by simp⟩
    exact absurd ⟨t, by simpa using ht⟩ (hnotyet (by simp [halloc u hact]))
  | @initSend u hact =>
    have hopen : w.sent.async.handle_ = some .active := by simpa using h.initialised u hact
    refine ⟨fun _ => ⟨hopen, fun t ht => (by cases ht)⟩, fun t ht => (by cases ht), ?_⟩
    simpa using h.unclosed
  | wake hidle hopen hk hle => exact h.of_eq rfl (by simp) (by simp)
  | swap hact => exact h.of_eq rfl (by simp) (by simp)
  | call hact => exact h.of_eq rfl (by simp) (by simp)
  | ret hact => exact h.of_eq rfl (by simp) (by simp)
  | finish hact => exact h.of_eq rfl (by simp) (by simp)
  | @close t husable => exact absurd rfl (he t)
  | closed hidle hc => exact absurd hc h.unclosed.1

theorem opening_of_run [DecidableEq φ] (h : Run (fun w e w' => step w e = some w') new events w)
    (hclose : ∀ t, .close t ∉ events) : Opening events w := by
  induction h with
  | nil => exact ⟨fun ⟨t, ht⟩ => (by cases ht), fun t ht => (by cases ht), by simp [new]⟩
  | snoc h hstep ih =>
    refine (ih fun t ht => hclose t (List.mem_append_left _ ht)).moves (allocating_of_run h)
      (moves_of_step hstep) ?_
    rintro t rfl
    exact hclose t (List.mem_append_right _ List.mem_cons_self)

/-- No thread sends on the handle between its allocation and `uv_async_init`. -/
def Initialised (w : AsyncSystem τ φ) : Event τ φ → Bool
  | .send _ => w.async.handle_ ≠ some .allocated
  | _ => true

/-- What is asked of the posts, when some events have led to a state. -/
structure Served (events : List (Event τ φ)) (w : AsyncSystem τ φ) : Prop where
  /-- The functions are run in the order of their pushes, each once. -/
  order : events.filterMap Event.executed <+: events.filterMap Event.pushed
  /-- No wake-up is lost. -/
  attended : (∃ t, .initSend t ∈ events) → ¬ w.activity.InProcess → w.async.callbacks_ ≠ [] → w.Attended

theorem served_of_run [DecidableEq φ] (h : Run (fun w e w' => step w e = some w') new events w)
    (hclose : ∀ t, .close t ∉ events) : Served events w := by
  refine ⟨?_, fun hinit hidle hne => ?_⟩
  · rw [pushed_eq h]
    exact List.prefix_append _ _
  · obtain ⟨hopen, hreturned⟩ := (opening_of_run h hclose).returned hinit
    refine noneForgotten_of_run h hopen hreturned (fun t ht => hidle ?_) hne
    rw [ht]
    trivial

/-- A step that can happen uses a handle that has been assigned, and not closed, as long as `close` is not
called; so it faults only before `uv_async_init`. -/
theorem returns_iff_initialised [DecidableEq φ] (h : Run (fun w e w' => step w e = some w') new events w)
    (hclose : ∀ t, .close t ∉ events) (he : ∀ t, e ≠ .close t) {x : Exec (AsyncSystem τ φ)}
    (hx : w.outcome e = some x) : Exec.Returns x ↔ w.Initialised e := by
  have hopening := opening_of_run h hclose
  rw [returns_outcome_iff hx]
  cases e with
  | close t => exact absurd rfl (he t)
  | send t =>
    have hsome : w.async.handle_ ≠ none := by
      simp only [outcome] at hx
      split at hx
      · next k hpos => exact found_of_run h t k hpos
      · cases hx
    have hopen := hopening.unclosed
    cases hhandle : w.async.handle_ with
    | none => exact absurd hhandle hsome
    | some handle => cases handle <;> simp_all [Event.Uses, Usable, Initialised]
  | initSend t =>
    have hopen : w.async.handle_ = some .active := by
      simp only [outcome] at hx
      split at hx
      · next u hact => exact hopening.initialised u hact
      · cases hx
    exact iff_of_true (fun _ => usable_iff.mpr (.inl hopen)) rfl
  | _ => exact iff_of_true (fun huses => False.elim huses) rfl

/-- **Functions are run in the order of their pushes, each once, and no wake-up is lost**, in every
run in which no thread sends on the handle before it is initialised; and a step that does is the only
one that faults. -/
theorem fifo_and_attended [DecidableEq φ]
    (h : Run (fun w e w' => w.Initialised e ∧ step w e = some w') new events w) (hclose : ∀ t, .close t ∉ events) :
    Served events w ∧ ∀ e x, (∀ t, e ≠ .close t) → w.outcome e = some x →
      ((∃ w', x = .ok w' ∧ Served (events ++ [e]) w') ↔ w.Initialised e) := by
  have hrun : Run (fun w e w' => step w e = some w') new events w := h.mono fun _ _ _ hstep => hstep.2
  refine ⟨served_of_run hrun hclose, fun e x he hx => ?_⟩
  rw [← returns_iff_initialised hrun hclose he hx]
  constructor
  · rintro ⟨w', rfl, -⟩
    exact Exec.returns_ok w'
  · rintro ⟨w', rfl⟩
    refine ⟨w', rfl, served_of_run (hrun.snoc (step_eq_some_iff.mpr hx)) fun t ht => ?_⟩
    rcases List.mem_append.mp ht with ht | ht
    · exact hclose t ht
    · exact he t (List.mem_singleton.mp ht).symm

/-- Two pushes before and during `init`, whose sends are served by one callback, and a third from
within the first function. -/
def sampleEvents : List (Event ℕ ℕ) :=
  [.push 1 7, .test 1, .init 0, .push 2 8, .test 2, .asyncInit 0, .send 2, .initSend 0, .wake 0 2,
    .swap 0, .call 0 7, .push 0 9, .test 0, .send 0, .ret 0, .call 0 8, .ret 0, .finish 0]

/-- A step that meets the condition. -/
def initialisedStep [DecidableEq φ] (w : AsyncSystem τ φ) (e : Event τ φ) : Option (AsyncSystem τ φ) :=
  if w.Initialised e then step w e else none

theorem fifo_and_attended_sample : ∃ w : AsyncSystem ℕ ℕ,
    sampleEvents.foldlM initialisedStep new = some w ∧
      sampleEvents.filterMap Event.executed <+: sampleEvents.filterMap Event.pushed ∧ w.Attended := by
  obtain ⟨w, hw⟩ := Option.isSome_iff_exists.mp
    (show (sampleEvents.foldlM initialisedStep (new : AsyncSystem ℕ ℕ)).isSome from by decide +kernel)
  have hrun : Run (fun w e w' => w.Initialised e ∧ step w e = some w') new sampleEvents w := by
    refine (Run.of_foldlM hw).mono fun w e w' hstep => ?_
    simpa [initialisedStep] using hstep
  obtain ⟨hserved, -⟩ := fifo_and_attended hrun (by simp [sampleEvents])
  refine ⟨w, hw, hserved.order, hserved.attended ⟨0, by decide⟩ ?_ ?_⟩
  · cases hw
    exact id
  · cases hw
    decide

/-- A thread pushes a function and finds the handle that `init` has just allocated. -/
def earlyEvents : List (Event ℕ ℕ) := [.push 1 7, .init 0, .test 1]

/-- **A thread can send on a handle that is not initialised.** -/
theorem not_fifo_and_attended : ∃ (w : AsyncSystem ℕ ℕ) (x : Exec (AsyncSystem ℕ ℕ)),
    Run (fun w e w' => step w e = some w') new earlyEvents w ∧ w.outcome (.send 1) = some x ∧
      x = .error .undefined ∧ ¬ ∃ w', x = .ok w' ∧ Served (earlyEvents ++ [.send 1]) w' := by
  obtain ⟨w, hw⟩ := Option.isSome_iff_exists.mp
    (show (earlyEvents.foldlM step (new : AsyncSystem ℕ ℕ)).isSome from by decide +kernel)
  refine ⟨w, .error .undefined, Run.of_foldlM hw, ?_, rfl, fun ⟨_, hx, _⟩ => by cases hx⟩
  cases hw
  rfl

/-! ### Closing -/

/-- The handle is being closed, or has been. -/
def Closed (w : AsyncSystem τ φ) : Bool :=
  w.async.handle_ = some .closing ∨ w.async.handle_ = some .deleted

/-- `process` has been called and is about to take what is in the queue. -/
def AboutToSwap (w : AsyncSystem τ φ) : Bool :=
  match w.activity with
  | .woken _ => true
  | _ => false

/-- When the handle is closed nothing is in the queue, unless it is about to be taken. -/
def Emptied (w : AsyncSystem τ φ) : Prop := w.Closed → w.async.callbacks_ = [] ∨ w.AboutToSwap

omit [DecidableEq τ] in
theorem closed_iff :
    w.Closed ↔ w.async.handle_ = some .closing ∨ w.async.handle_ = some .deleted := by
  simp [Closed]

omit [DecidableEq τ] in
theorem exists_woken_iff : w.AboutToSwap ↔ ∃ t, w.activity = .woken t := by
  cases h : w.activity <;> simp [AboutToSwap, h]

/-- The handle is used before it is initialised, or after it has been deleted. -/
def Astray (w : AsyncSystem τ φ) : Event τ φ → Bool
  | .send _ => w.async.handle_ = some .allocated ∨ w.async.handle_ = some .deleted
  | .close _ => w.async.handle_ = some .deleted
  | _ => false

/-- The handle is closed only while nothing is in the queue, and nothing is pushed from then on,
unless it is about to be taken; and the handle is neither sent on nor closed before it is initialised
or after it has been deleted. -/
def Orderly (w : AsyncSystem τ φ) : Event τ φ → Bool
  | .close _ => (w.Closed ∨ w.async.callbacks_.isEmpty ∨ w.AboutToSwap) ∧ w.async.handle_ ≠ some .deleted
  | .push _ _ => w.Closed → w.AboutToSwap
  | .send _ => w.async.handle_ ≠ some .allocated ∧ w.async.handle_ ≠ some .deleted
  | _ => true

omit [DecidableEq τ] in
/-- A step that leaves the queue and the handle as they are, at a time when nothing is about to be
taken. -/
theorem Emptied.of_eq (h : w.Emptied) (hasync : w'.async = w.async) (hidle : ¬ w.AboutToSwap) :
    w'.Emptied := by
  intro hclosed
  rw [Closed, hasync] at hclosed
  rw [hasync]
  rcases h hclosed with hempty | hswap
  · exact .inl hempty
  · exact absurd hswap hidle

omit [DecidableEq τ] in
theorem Emptied.of_activity (h : w.Emptied) (hasync : w'.async = w.async)
    (hactivity : w'.activity = w.activity) : w'.Emptied := by
  intro hclosed
  rw [Closed, hasync] at hclosed
  rw [hasync, AboutToSwap, hactivity]
  exact h hclosed

/-- **The step lemma** of the closing. -/
theorem Emptied.moves (h : w.Emptied) (hstep : w.Moves e w') (hok : w.Orderly e) : w'.Emptied := by
  cases hstep with
  | push f hout hbusy =>
    intro hclosed
    simp only [Orderly, decide_eq_true_eq] at hok
    exact .inr (hok hclosed)
  | test_none hpos hnone => exact h.of_activity rfl rfl
  | test_some hpos hsome => exact h.of_activity rfl rfl
  | send hpos husable => exact h.of_activity (by simp [setPosition]) (by simp [setPosition])
  | init_none hidle hnone =>
    intro hclosed
    rcases closed_iff.mp hclosed with hclosed | hclosed <;> cases hclosed
  | init_some hidle hsome => exact h
  | asyncInit hact =>
    intro hclosed
    rcases closed_iff.mp hclosed with hclosed | hclosed <;> cases hclosed
  | initSend hact => exact h.of_eq (by simp) (by simp [AboutToSwap, hact])
  | wake hidle hopen hk hle =>
    intro _
    exact .inr rfl
  | swap hact =>
    intro _
    exact .inl rfl
  | call hact => exact h.of_eq rfl (by simp [AboutToSwap, hact])
  | ret hact => exact h.of_eq rfl (by simp [AboutToSwap, hact])
  | finish hact => exact h.of_eq rfl (by simp [AboutToSwap, hact])
  | close husable =>
    intro _
    have hnow : w.async.callbacks_ = [] ∨ w.AboutToSwap := by
      simp only [Orderly, decide_eq_true_eq, List.isEmpty_iff] at hok
      rcases hok with hclosed | hempty
      · exact h hclosed
      · exact hempty
    rw [shut]
    split <;> exact hnow
  | closed hidle hclosing =>
    intro _
    rcases h (closed_iff.mpr (.inl hclosing)) with hempty | hswap
    · exact .inl hempty
    · simp [AboutToSwap, hidle] at hswap

/-- The functions `fs` are in the queue of a handle that is closed, and are not about to be taken. -/
structure Abandoned (fs : List φ) (w : AsyncSystem τ φ) : Prop where
  /-- In the middle of `init` the handle is not initialised. -/
  allocating : w.Allocating
  /-- The handle is closed. -/
  closed : w.Closed
  /-- Nothing is about to be taken. -/
  idle : ¬ w.AboutToSwap
  /-- They are in the queue. -/
  queued : fs <+: w.async.callbacks_

/-- **The step lemma** of what is abandoned. -/
theorem Abandoned.moves {fs : List φ} (h : w.Abandoned fs) (hstep : w.Moves e w') : w'.Abandoned fs := by
  have halloc := h.allocating.moves hstep
  obtain ⟨halloc₀, hclosed, hidle, hq⟩ := h
  have hhandle := closed_iff.mp hclosed
  have hopen : w.async.handle_ ≠ some .active := by
    rcases hhandle with h | h <;> simp [h]
  suffices w'.Closed ∧ ¬ w'.AboutToSwap ∧ fs <+: w'.async.callbacks_ from
    ⟨halloc, this.1, this.2.1, this.2.2⟩
  cases hstep with
  | push f hout hbusy => exact ⟨hclosed, hidle, hq.trans (List.prefix_append _ _)⟩
  | test_none hpos hnone => exact ⟨hclosed, hidle, hq⟩
  | test_some hpos hsome => exact ⟨hclosed, hidle, hq⟩
  | send hpos husable =>
    rw [sent, if_neg hopen]
    exact ⟨hclosed, hidle, hq⟩
  | init_none hact hnone => rcases hhandle with h | h <;> simp [hnone] at h
  | init_some hact hsome => exact ⟨hclosed, hidle, hq⟩
  | asyncInit hact => rcases hhandle with h | h <;> simp [halloc₀ _ hact] at h
  | initSend hact =>
    rw [sent, if_neg hopen]
    exact ⟨hclosed, by simp [AboutToSwap], hq⟩
  | wake hact hactive hk hle => exact absurd hactive hopen
  | swap hact => exact absurd (exists_woken_iff.mpr ⟨_, hact⟩) hidle
  | call hact => exact ⟨hclosed, by simp [AboutToSwap], hq⟩
  | ret hact => exact ⟨hclosed, by simp [AboutToSwap], hq⟩
  | finish hact => exact ⟨hclosed, by simp [AboutToSwap], hq⟩
  | close husable =>
    rw [shut, if_neg hopen]
    exact ⟨hclosed, hidle, hq⟩
  | closed hact hclosing => exact ⟨closed_iff.mpr (.inr rfl), by simpa [AboutToSwap] using hidle, hq⟩

/-- **What is left in the queue is never run**: once the handle is closed, and nothing is about to
be taken, the functions in the queue stay there. -/
theorem left_behind [DecidableEq φ] {w₀ : AsyncSystem τ φ}
    (h : Run (fun w e w' => step w e = some w') w₀ events w) (halloc : w₀.Allocating)
    (hclosed : w₀.Closed) (hidle : ¬ w₀.AboutToSwap) :
    w.Closed ∧ ¬ w.AboutToSwap ∧ w₀.async.callbacks_ <+: w.async.callbacks_ := by
  have habandoned : w.Abandoned w₀.async.callbacks_ :=
    h.invariant ⟨halloc, hclosed, hidle, List.prefix_rfl⟩ fun _ _ _ h hstep => h.moves (moves_of_step hstep)
  exact ⟨habandoned.closed, habandoned.idle, habandoned.queued⟩

end AsyncSystem

end UvCpp
