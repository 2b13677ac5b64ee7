import UvCpp.Loop.Async
import Mathlib.Data.List.Perm.Basic

/-!
# The event loop

`runInThisLoop` runs a function at once on the thread of the loop, and on any thread when the loop
has stopped; otherwise it posts it. `stop` closes the async handle the posts rely on, and the loop
ends when the handle is closed.

A function that is in the queue when the handle is closed, or is pushed later by a thread that has
not yet seen the loop stopped, is never run (`AsyncSystem.left_behind`). And a thread may use the
handle when it is not initialised yet, or has been deleted. If the handle is closed only while the
queue is empty, nothing is pushed from then on, and the handle is used only as long as it exists,
every function is run exactly once, and no step faults (`runs_all`).
-/

namespace UvCpp

open UvCpp.Cpp UvCpp.Systems

variable {τ φ : Type}

/-- `EventLoop::Status`. -/
inductive Status where
  | NotRun
  | Runed
  | Stop
  deriving DecidableEq

/-- `uv_run_mode`. -/
inductive RunMode where
  /-- `UV_RUN_DEFAULT`, of `run`. -/
  | default
  /-- `UV_RUN_NOWAIT`, of `runNoWait`. -/
  | noWait
  deriving DecidableEq

/-- The status that `run` and `runNoWait` write when `uv_run` has returned. -/
def RunMode.after : RunMode → Status
  | .default => .Stop
  | .noWait => .NotRun

/-- Where the thread is that runs the loop. -/
inductive Stage where
  /-- It has found the loop not running, and calls `init` next. -/
  | tested
  /-- `init` has begun, or has returned. -/
  | inited
  /-- In `uv_run`. -/
  | looping
  deriving DecidableEq

/-- Where a thread is in a call of the loop. -/
inductive Call (φ : Type) where
  /-- Nowhere. -/
  | outside
  /-- `runInThisLoop`: not on the thread of the loop, and asks whether the loop has stopped. -/
  | asked (f : φ)
  /-- `runInThisLoop`: calls that of the `Async`. -/
  | queueing (f : φ)
  /-- `stop`: calls `close` of the `Async`. -/
  | stopping
  deriving DecidableEq

/-- `uv::EventLoop`, and the threads that use it. -/
structure EventLoop (τ φ : Type) where
  /-- `async_`. -/
  async_ : AsyncSystem τ φ
  /-- `status_`. -/
  status_ : Status
  /-- `loopThreadId_`. -/
  loopThreadId_ : Option τ
  /-- The thread in `run` or `runNoWait`. -/
  runner : Option (τ × RunMode × Stage)
  /-- Where every thread is. -/
  call : τ → Call φ

namespace EventLoop

/-- What a thread does next. -/
inductive Event (τ φ : Type) where
  /-- `runInThisLoop` is called, with a function or `nullptr`, and asks whether this is the thread
  of the loop; `now` is the answer. -/
  | runInThisLoop (t : τ) (func : Option φ) (now : Bool)
  /-- `runInThisLoop` asks whether the loop has stopped; `now` is the answer. -/
  | isStoped (t : τ) (func : φ) (now : Bool)
  /-- `run` or `runNoWait` is called, and tests the status. -/
  | run (t : τ) (mode : RunMode)
  /-- It writes the thread and the status, and calls `uv_run`. -/
  | start (t : τ)
  /-- `uv_run` returns, and the status is written. -/
  | ended (t : τ)
  /-- `stop` is called, and tests the status. -/
  | stop (t : τ)
  /-- A step of the `Async`. -/
  | async (e : AsyncSystem.Event τ φ)
  deriving DecidableEq

/-- A new loop. -/
def new : EventLoop τ φ := ⟨.new, .NotRun, none, none, fun _ => .outside⟩

section

variable [DecidableEq τ]

/-- `isRunInLoopThread`. -/
def isRunInLoopThread (s : EventLoop τ φ) (t : τ) : Bool :=
  if s.status_ = .Runed then decide (s.loopThreadId_ = some t) else false

/-- `isStoped`. -/
def isStoped (s : EventLoop τ φ) : Bool := s.status_ = .Stop

/-- A thread moves. -/
def setCall (s : EventLoop τ φ) (t : τ) (c : Call φ) : EventLoop τ φ :=
  { s with call := Function.update s.call t c }

/-- The thread that runs the loop, and where it is. -/
def At (s : EventLoop τ φ) (t : τ) (stage : Stage) : Bool :=
  s.runner.any fun r => r.1 = t ∧ r.2.2 = stage

/-- `uv_run` can return: it is called to run without waiting, or there is no open handle any more.
The async handle keeps it going. -/
def CanEnd (s : EventLoop τ φ) : RunMode → Bool
  | .default => s.async_.async.handle_ = some .deleted
  | .noWait => true

/-- What a step of the `Async` is to the calls of the loop. -/
def follow (s : EventLoop τ φ) : AsyncSystem.Event τ φ → EventLoop τ φ
  | .push t _ => s.setCall t .outside
  | .close t => s.setCall t .outside
  | .init _ => { s with runner := s.runner.map fun r => (r.1, r.2.1, .inited) }
  | _ => s

variable [DecidableEq φ]

/-- A thread that is in no call of the loop and its `Async`. -/
def Outside (s : EventLoop τ φ) (t : τ) : Bool :=
  s.call t = .outside ∧ s.async_.position t = .outside

/-- A thread that can call the loop: not one in the middle of a call, of `run` or of `process`. -/
def Free (s : EventLoop τ φ) (t : τ) : Bool :=
  s.Outside t ∧ s.async_.activity.busy ≠ some t ∧ ¬ s.At t .tested ∧ ¬ s.At t .inited

/-- When a step of the `Async` can happen: the pushes are those of `runInThisLoop`, the closes those
of `stop`; `init` is called by `run`; and `uv_run` runs the callbacks, on its own thread. -/
def Allows (s : EventLoop τ φ) : AsyncSystem.Event τ φ → Bool
  | .push t f => s.call t = .queueing f
  | .test _ | .send _ => true
  | .init t => s.At t .tested
  | .asyncInit t | .initSend t => s.At t .inited
  | .wake t _ | .swap t | .call t _ | .ret t | .finish t | .closed t => s.At t .looping ∧ s.Outside t
  | .close t => s.call t = .stopping

/-- What a step comes to, if it can happen. One thread runs the loop at a time: libuv's `uv_run` is
not reentrant. `loopThreadId_` is read only when the status says the loop is running, so that it is
written together with the status. -/
def outcome (s : EventLoop τ φ) : Event τ φ → Option (Exec (EventLoop τ φ))
  | .runInThisLoop t func now =>
    if s.Free t then
      match func with
      | none => if now then none else some (.ok s)
      | some f =>
        if now = s.isRunInLoopThread t then some (.ok (if now then s else s.setCall t (.asked f))) else none
    else none
  | .isStoped t f now =>
    if s.call t = .asked f ∧ now = s.isStoped then
      some (.ok (s.setCall t (if now then .outside else .queueing f)))
    else none
  | .run t mode =>
    if s.Free t then
      if s.status_ = .NotRun then
        if s.runner = none then some (.ok { s with runner := some (t, mode, .tested) }) else none
      else some (.ok s)
    else none
  | .start t =>
    match s.runner with
    | some (u, mode, .inited) =>
      match s.async_.activity with
      | .none =>
        if t = u then
          some (.ok { s with loopThreadId_ := some t, status_ := .Runed, runner := some (t, mode, .looping) })
        else none
      | _ => none
    | _ => none
  | .ended t =>
    match s.runner with
    | some (u, mode, .looping) =>
      match s.async_.activity with
      | .none =>
        if t = u ∧ s.Outside t ∧ s.CanEnd mode then
          some (.ok { s with status_ := mode.after, runner := none })
        else none
      | _ => none
    | _ => none
  | .stop t =>
    if s.Free t then
      some (.ok (if s.status_ = .Runed then s.setCall t .stopping else s))
    else none
  | .async e =>
    if s.Allows e then
      (s.async_.outcome e).map fun x => do
        let async_ ← x
        .ok { s.follow e with async_ }
    else none

/-- A step that can happen, and does not fault. -/
def step (s : EventLoop τ φ) (e : Event τ φ) : Option (EventLoop τ φ) := (s.outcome e).bind Except.toOption

end

/-- The function an event runs in the call of `runInThisLoop`. -/
def Event.ranNow : Event τ φ → Option φ
  | .runInThisLoop _ func true => func
  | .isStoped _ func true => some func
  | _ => none

/-- The step of the `Async` an event is. -/
def Event.ofAsync : Event τ φ → Option (AsyncSystem.Event τ φ)
  | .async e => some e
  | _ => none

/-- The function that an event has `runInThisLoop` accept: it is run at once, or pushed. -/
def Event.accepted (e : Event τ φ) : Option φ := e.ranNow <|> e.ofAsync.bind AsyncSystem.Event.pushed

/-- The function an event runs. -/
def Event.executed (e : Event τ φ) : Option φ := e.ranNow <|> e.ofAsync.bind AsyncSystem.Event.executed

/-! ### The condition -/

/-- The handle is closed only while the queue is empty, and nothing is pushed from then on, unless
`process` is about to take what is in the queue; and the handle is neither sent on nor closed before
it is initialised or after it has been deleted. -/
def Orderly (s : EventLoop τ φ) : Event τ φ → Bool
  | .async e => s.async_.Orderly e
  | _ => true

/-! ### The invariant -/

/-- What holds of a loop as long as the condition is met. -/
structure Inv (s : EventLoop τ φ) : Prop where
  /-- Nothing waits when the handle is closed. -/
  emptied : s.async_.Emptied
  /-- A loop has stopped only when the handle has been deleted, and is not run again. -/
  stopped : s.status_ = .Stop → s.async_.async.handle_ = some .deleted ∧ s.runner = none
  /-- Without a thread that runs the loop there is nothing going on in `init` and `process`. -/
  resting : s.runner = none → s.async_.activity = .none

section

variable [DecidableEq τ] {s s' : EventLoop τ φ} {e : Event τ φ} {events : List (Event τ φ)}

@[simp] theorem async_setCall (s : EventLoop τ φ) (t : τ) (c : Call φ) :
    (s.setCall t c).async_ = s.async_ := rfl

theorem Inv.setCall (h : Inv s) (t : τ) (c : Call φ) : Inv (s.setCall t c) :=
  ⟨h.emptied, h.stopped, h.resting⟩

@[simp] theorem status_follow (s : EventLoop τ φ) (a : AsyncSystem.Event τ φ) :
    (s.follow a).status_ = s.status_ := by
  cases a <;> rfl

theorem runner_follow (s : EventLoop τ φ) (a : AsyncSystem.Event τ φ) :
    (s.follow a).runner = none ↔ s.runner = none := by
  cases a <;> simp [follow, EventLoop.setCall]

/-- Without a thread that runs the loop, the thread of the loop stays where it is. -/
theorem activity_of_allows [DecidableEq φ] {a : AsyncSystem.Event τ φ} {w : AsyncSystem τ φ} (hallows : s.Allows a)
    (hrunner : s.runner = none) (hstep : s.async_.Moves a w) : w.activity = s.async_.activity := by
  cases hstep with
  | push f hout hbusy => rfl
  | test_none hpos hnone => rfl
  | test_some hpos hsome => rfl
  | send hpos husable => simp [AsyncSystem.setPosition]
  | close husable => simp
  | init_none hidle hnone => simp [Allows, At, hrunner] at hallows
  | init_some hidle hsome => rfl
  | asyncInit hact => simp [Allows, At, hrunner] at hallows
  | initSend hact => simp [Allows, At, hrunner] at hallows
  | wake hidle hopen hk hle => simp [Allows, At, hrunner] at hallows
  | swap hact => simp [Allows, At, hrunner] at hallows
  | call hact => simp [Allows, At, hrunner] at hallows
  | ret hact => simp [Allows, At, hrunner] at hallows
  | finish hact => simp [Allows, At, hrunner] at hallows
  | closed hidle hclosing => rfl

/-- A deleted handle stays deleted. -/
theorem deleted_of_moves {w w' : AsyncSystem τ φ} {a : AsyncSystem.Event τ φ} (halloc : w.Allocating)
    (hstep : w.Moves a w') (hdeleted : w.async.handle_ = some .deleted) :
    w'.async.handle_ = some .deleted := by
  cases hstep with
  | push f hout hbusy => exact hdeleted
  | test_none hpos hnone => exact hdeleted
  | test_some hpos hsome => exact hdeleted
  | send hpos husable => simpa [AsyncSystem.setPosition] using hdeleted
  | close husable => simp [AsyncSystem.shut, hdeleted]
  | init_none hidle hnone => simp [hnone] at hdeleted
  | init_some hidle hsome => exact hdeleted
  | asyncInit hact => simp [halloc _ hact] at hdeleted
  | initSend hact => simpa using hdeleted
  | wake hidle hopen hk hle => exact hdeleted
  | swap hact => exact hdeleted
  | call hact => exact hdeleted
  | ret hact => exact hdeleted
  | finish hact => exact hdeleted
  | closed hidle hclosing => rfl

variable [DecidableEq φ]

/-- What a step does. -/
inductive Moves (s : EventLoop τ φ) : Event τ φ → EventLoop τ φ → Prop where
  | null {t : τ} : Moves s (.runInThisLoop t none false) s
  | now {t : τ} {f : φ} (hthread : s.isRunInLoopThread t) : Moves s (.runInThisLoop t (some f) true) s
  | ask {t : τ} {f : φ} (hthread : ¬ s.isRunInLoopThread t) :
      Moves s (.runInThisLoop t (some f) false) (s.setCall t (.asked f))
  | isStoped {t : τ} {f : φ} {now : Bool} (hasked : s.call t = .asked f) (hnow : now = s.isStoped) :
      Moves s (.isStoped t f now) (s.setCall t (if now then .outside else .queueing f))
  | run {t : τ} {mode : RunMode} (hstatus : s.status_ = .NotRun) (hnone : s.runner = none) :
      Moves s (.run t mode) { s with runner := some (t, mode, .tested) }
  | run_not {t : τ} {mode : RunMode} (hstatus : s.status_ ≠ .NotRun) : Moves s (.run t mode) s
  | start {t : τ} {mode : RunMode} (hrunner : s.runner = some (t, mode, .inited))
      (hidle : s.async_.activity = .none) :
      Moves s (.start t) { s with loopThreadId_ := some t, status_ := .Runed
                                  runner := some (t, mode, .looping) }
  | ended {t : τ} {mode : RunMode} (hrunner : s.runner = some (t, mode, .looping))
      (hidle : s.async_.activity = .none) (hend : s.CanEnd mode) :
      Moves s (.ended t) { s with status_ := mode.after, runner := none }
  | stop {t : τ} (hstatus : s.status_ = .Runed) : Moves s (.stop t) (s.setCall t .stopping)
  | stop_not {t : τ} (hstatus : s.status_ ≠ .Runed) : Moves s (.stop t) s
  | async {a : AsyncSystem.Event τ φ} {w : AsyncSystem τ φ} (hallows : s.Allows a)
      (hstep : s.async_.step a = some w) : Moves s (.async a) { s.follow a with async_ := w }

theorem step_eq_some_iff : s.step e = some s' ↔ s.outcome e = some (.ok s') := Exec.bind_toOption_eq_some_iff

theorem moves_of_outcome (h : s.outcome e = some (.ok s')) : s.Moves e s' := by
  cases e with
  | runInThisLoop t func now =>
    simp only [outcome, Option.ite_none_right_eq_some] at h
    obtain ⟨-, h⟩ := h
    cases func with
    | none =>
      cases now with
      | true => cases h
      | false =>
        cases h
        exact .null
    | some f =>
      simp only [Option.ite_none_right_eq_some, Option.some.injEq, Except.ok.injEq] at h
      obtain ⟨hnow, rfl⟩ := h
      cases now with
      | true => exact .now hnow.symm
      | false => exact .ask (by simp [← hnow])
  | isStoped t f now =>
    simp only [outcome, Option.ite_none_right_eq_some, Option.some.injEq, Except.ok.injEq] at h
    obtain ⟨⟨hasked, hnow⟩, rfl⟩ := h
    exact .isStoped hasked hnow
  | run t mode =>
    simp only [outcome, Option.ite_none_right_eq_some] at h
    obtain ⟨-, h⟩ := h
    split at h
    · next hstatus =>
      simp only [Option.ite_none_right_eq_some, Option.some.injEq, Except.ok.injEq] at h
      obtain ⟨hnone, rfl⟩ := h
      exact .run hstatus hnone
    · next hstatus =>
      cases h
      exact .run_not hstatus
  | start t =>
    simp only [outcome] at h
    split at h
    · next u mode hrunner =>
      split at h
      · next hidle =>
        simp only [Option.ite_none_right_eq_some, Option.some.injEq, Except.ok.injEq] at h
        obtain ⟨rfl, rfl⟩ := h
        exact .start hrunner hidle
      · cases h
    · cases h
  | ended t =>
    simp only [outcome] at h
    split at h
    · next u mode hrunner =>
      split at h
      · next hidle =>
        simp only [Option.ite_none_right_eq_some, Option.some.injEq, Except.ok.injEq] at h
        obtain ⟨⟨rfl, -, hend⟩, rfl⟩ := h
        exact .ended hrunner hidle hend
      · cases h
    · cases h
  | stop t =>
    simp only [outcome, Option.ite_none_right_eq_some, Option.some.injEq, Except.ok.injEq] at h
    obtain ⟨-, rfl⟩ := h
    split
    · next hstatus => exact .stop hstatus
    · next hstatus => exact .stop_not hstatus
  | async a =>
    simp only [outcome, Option.ite_none_right_eq_some, Option.map_eq_some_iff] at h
    obtain ⟨hallows, x, hx, h⟩ := h
    obtain ⟨w, rfl, hw⟩ := Exec.bind_eq_ok_iff.mp h
    cases hw
    exact .async hallows (AsyncSystem.step_eq_some_iff.mpr hx)

theorem moves_of_step (h : s.step e = some s') : s.Moves e s' := moves_of_outcome (step_eq_some_iff.mp h)

/-- **The step lemma.** -/
theorem Inv.moves (h : Inv s) (halloc : s.async_.Allocating) (hstep : s.Moves e s')
    (hok : s.Orderly e) : Inv s' := by
  cases hstep with
  | null => exact h
  | now hthread => exact h
  | ask hthread => exact h.setCall _ _
  | isStoped hasked hnow => exact h.setCall _ _
  | run hstatus hnone =>
    refine ⟨h.emptied, fun hstop => ?_, fun hnone => by cases hnone⟩
    rw [hstatus] at hstop
    cases hstop
  | run_not hstatus => exact h
  | start hrunner hidle => exact ⟨h.emptied, fun hstop => (by cases hstop), fun hnone => by cases hnone⟩
  | @ended t mode hrunner hidle hend =>
    refine ⟨h.emptied, fun hstop => ⟨?_, rfl⟩, fun _ => hidle⟩
    cases mode with
    | default => simpa [CanEnd] using hend
    | noWait => cases hstop
  | stop hstatus => exact h.setCall _ _
  | stop_not hstatus => exact h
  | @async a w hallows hw =>
    have hmoves := AsyncSystem.moves_of_step hw
    refine ⟨h.emptied.moves hmoves hok, fun hstop => ?_, fun hnone => ?_⟩
    · obtain ⟨hdeleted, hnone⟩ := h.stopped (by simpa using hstop)
      exact ⟨deleted_of_moves halloc hmoves hdeleted, (runner_follow s a).mpr hnone⟩
    · have hnone : s.runner = none := (runner_follow s a).mp hnone
      exact (activity_of_allows hallows hnone hmoves).trans (h.resting hnone)

/-- What the loop does to its `Async` is a run of it. -/
theorem async_of_run {s₀ : EventLoop τ φ} (h : Run (fun s e s' => step s e = some s') s₀ events s) :
    Run (fun w a w' => AsyncSystem.step w a = some w') s₀.async_ (events.filterMap Event.ofAsync)
      s.async_ := by
  apply h.simulates async_ Event.ofAsync
  · intro s e s' a hstep ha
    cases moves_of_step hstep with
    | async hallows hw =>
      cases ha
      exact hw
    | _ => cases ha
  · intro s e s' hstep ha
    cases moves_of_step hstep with
    | async hallows hw => cases ha
    | _ => rfl

/-! ### The handle -/

/-- By when the handle has been initialised. -/
structure Ready (s : EventLoop τ φ) : Prop where
  /-- By `stop`. -/
  stopping : ∀ t, s.call t = .stopping → s.async_.Begun
  /-- By the time the loop is running. -/
  running : s.status_ = .Runed → s.async_.Begun
  /-- It has been assigned when `init` has been called. -/
  inited : ∀ t mode, s.runner = some (t, mode, .inited) → s.async_.async.handle_ ≠ none

omit [DecidableEq φ] in
theorem Ready.setCall (h : Ready s) {t : τ} {c : Call φ} (hc : c = .stopping → s.async_.Begun) :
    Ready (s.setCall t c) := by
  refine ⟨fun u hu => ?_, h.running, h.inited⟩
  by_cases hut : u = t
  · subst hut
    exact hc (by simpa [EventLoop.setCall] using hu)
  · exact h.stopping u (by simpa [EventLoop.setCall, hut] using hu)

omit [DecidableEq φ] in
/-- The handle is never taken away. -/
theorem handle_ne_none_of_moves {w w' : AsyncSystem τ φ} {a : AsyncSystem.Event τ φ} (hstep : w.Moves a w')
    (hsome : w.async.handle_ ≠ none) : w'.async.handle_ ≠ none := by
  cases hstep with
  | init_none hidle hnone => exact absurd hnone hsome
  | asyncInit hact => simp
  | closed hidle hclosing => simp
  | send hpos husable => simpa [AsyncSystem.setPosition] using hsome
  | initSend hact => simpa using hsome
  | close husable =>
    rw [AsyncSystem.shut]
    split
    · simp
    · exact hsome
  | _ => exact hsome

omit [DecidableEq φ] in
/-- A call of `init` leaves a handle. -/
theorem handle_ne_none_of_init {w w' : AsyncSystem τ φ} {t : τ} (hstep : w.Moves (.init t) w') :
    w'.async.handle_ ≠ none := by
  cases hstep with
  | init_none hidle hnone => simp
  | init_some hidle hsome => exact hsome

omit [DecidableEq φ] in
/-- A step of the `Async` begins no `stop`. -/
theorem call_follow {a : AsyncSystem.Event τ φ} {t : τ} (h : (s.follow a).call t = .stopping) :
    s.call t = .stopping := by
  cases a with
  | push u f =>
    by_cases htu : t = u
    · simp [follow, EventLoop.setCall, htu] at h
    · simpa [follow, EventLoop.setCall, htu] using h
  | close u =>
    by_cases htu : t = u
    · simp [follow, EventLoop.setCall, htu] at h
    · simpa [follow, EventLoop.setCall, htu] using h
  | _ => exact h

theorem Ready.moves (h : Ready s) (hinit : s.async_.Initialising) (hstep : s.Moves e s') : Ready s' := by
  cases hstep with
  | null => exact h
  | now hthread => exact h
  | ask hthread => exact h.setCall fun hc => by cases hc
  | @isStoped t f now hasked hnow =>
    refine h.setCall fun hc => ?_
    split at hc <;> cases hc
  | run hstatus hnone => exact ⟨h.stopping, h.running, fun t mode hr => by cases hr⟩
  | run_not hstatus => exact h
  | @start t mode hrunner hidle =>
    -- `init` has returned
    have hbegun : s.async_.Begun := by
      refine ⟨h.inited t mode hrunner, fun halloc => ?_⟩
      obtain ⟨u, hu⟩ := hinit.allocated halloc
      rw [hidle] at hu
      cases hu
    exact ⟨fun _ _ => hbegun, fun _ => hbegun, fun t mode hr => by cases hr⟩
  | @ended t mode hrunner hidle hend =>
    refine ⟨h.stopping, fun hstatus => ?_, fun t mode hr => by cases hr⟩
    cases mode <;> cases hstatus
  | stop hstatus => exact h.setCall fun _ => h.running hstatus
  | stop_not hstatus => exact h
  | @async a w hallows hw =>
    have hmoves := AsyncSystem.moves_of_step hw
    refine ⟨fun t ht => (h.stopping t (call_follow ht)).moves hmoves,
      fun hstatus => (h.running (by simpa using hstatus)).moves hmoves, fun t mode hr => ?_⟩
    by_cases ha : ∃ u, a = .init u
    · obtain ⟨u, rfl⟩ := ha
      exact handle_ne_none_of_init hmoves
    · refine handle_ne_none_of_moves hmoves (h.inited t mode ?_)
      cases a with
      | init u => exact absurd ⟨u, rfl⟩ ha
      | _ => exact hr

theorem ready_of_run (h : Run (fun s e s' => step s e = some s') new events s) : Ready s := by
  induction h with
  | nil => exact ⟨fun t ht => (by cases ht), fun hstatus => (by cases hstatus), fun t mode hr => by cases hr⟩
  | snoc h hstep ih => exact ih.moves (AsyncSystem.initialising_of_run (async_of_run h)) (moves_of_step hstep)

/-- A step of the `Async` that `Allows` lets happen uses a handle that can be used, but for sends and
closes that come too early or too late. -/
theorem usable_iff_of_uses (h : Run (fun s e s' => step s e = some s') new events s) {a : AsyncSystem.Event τ φ}
    {x : Exec (AsyncSystem τ φ)} (hallows : s.Allows a) (hx : s.async_.outcome a = some x) :
    (a.Uses → s.async_.Usable) ↔ ¬ s.async_.Astray a := by
  have hasync := async_of_run h
  have hgone : s.async_.async.handle_ = some .allocated ∨ s.async_.async.handle_ = some .deleted →
      ¬ s.async_.Usable := by
    rw [AsyncSystem.usable_iff]
    rintro (hhandle | hhandle) <;> simp [hhandle]
  cases a with
  | send t =>
    simp only [AsyncSystem.outcome] at hx
    split at hx
    · next k hpos =>
      have hsome := AsyncSystem.found_of_run hasync t k hpos
      simp only [AsyncSystem.Astray, decide_eq_true_eq]
      refine ⟨fun husable hastray => hgone hastray (husable trivial), fun hnot _ => ?_⟩
      exact AsyncSystem.Begun.usable ⟨hsome, fun halloc => hnot (.inl halloc)⟩ fun hdeleted => hnot (.inr hdeleted)
    · cases hx
  | initSend t =>
    simp only [AsyncSystem.outcome] at hx
    split at hx
    · next u hact =>
      exact iff_of_true (fun _ => (AsyncSystem.initialising_of_run hasync).initialised u hact) Bool.false_ne_true
    · cases hx
  | close t =>
    simp only [Allows, decide_eq_true_eq] at hallows
    simp only [AsyncSystem.Astray, decide_eq_true_eq]
    refine ⟨fun husable hdeleted => hgone (.inr hdeleted) (husable trivial), fun hnot _ => ?_⟩
    exact ((ready_of_run h).stopping t hallows).usable hnot
  | _ => exact iff_of_true (fun huses => False.elim huses) Bool.false_ne_true

/-- **When a step faults**: when it uses the handle too early or too late. -/
theorem returns_iff (h : Run (fun s e s' => step s e = some s') new events s) {x : Exec (EventLoop τ φ)}
    (hx : s.outcome e = some x) : Exec.Returns x ↔ ∀ a, e.ofAsync = some a → ¬ s.async_.Astray a := by
  cases e with
  | async a =>
    simp only [outcome, Option.ite_none_right_eq_some, Option.map_eq_some_iff] at hx
    obtain ⟨hallows, y, hy, rfl⟩ := hx
    have hiff := (AsyncSystem.returns_outcome_iff hy).trans (usable_iff_of_uses h hallows hy)
    constructor
    · rintro ⟨s', hs'⟩ _ ha
      cases ha
      obtain ⟨w, hw, -⟩ := Exec.bind_eq_ok_iff.mp hs'
      exact hiff.mp ⟨w, hw⟩
    · intro hnot
      exact Exec.Returns.bind (hiff.mpr (hnot a rfl)) fun w _ => Exec.returns_ok _
  | _ =>
    refine iff_of_true ?_ fun a ha => by cases ha
    simp only [outcome] at hx
    grind [Exec.Returns]

/-- **A step that meets the condition does not fault.** -/
theorem returns_of_orderly (h : Run (fun s e s' => step s e = some s') new events s) {x : Exec (EventLoop τ φ)}
    (hok : s.Orderly e) (hx : s.outcome e = some x) : Exec.Returns x := by
  refine (returns_iff h hx).mpr fun a ha => ?_
  cases e with
  | async b =>
    cases ha
    have hok : s.async_.Orderly a := hok
    cases a <;> simp_all [AsyncSystem.Orderly, AsyncSystem.Astray]
  | _ => cases ha

/-- The runs in which every step meets the condition. -/
def OrderlyRun (events : List (Event τ φ)) (s : EventLoop τ φ) : Prop :=
  Run (fun s e s' => s.Orderly e ∧ step s e = some s') new events s

theorem OrderlyRun.run (h : OrderlyRun events s) : Run (fun s e s' => step s e = some s') new events s :=
  h.mono fun _ _ _ hstep => hstep.2

theorem OrderlyRun.inv (h : OrderlyRun events s) : Inv s := by
  unfold OrderlyRun at h
  induction h with
  | nil => exact ⟨fun _ => .inl rfl, fun hstop => (by cases hstop), fun _ => rfl⟩
  | snoc h hstep ih =>
    have halloc := AsyncSystem.allocating_of_run (async_of_run (OrderlyRun.run h))
    exact ih.moves halloc (moves_of_step hstep.2) hstep.1

/-! ### What becomes of the functions -/

/-- What is in the queue will be run: the next `run` or `runNoWait` calls `init`, which sends; or
the handle is open, and `init` or a thread that pushed is about to send, or a send is to be served;
or `process` is about to take it. -/
def WillBeRun (s : EventLoop τ φ) : Prop :=
  s.async_.async.handle_ = none ∨ s.async_.async.handle_ = some .allocated ∨ s.async_.AboutToSwap ∨
    (s.async_.async.handle_ = some .active ∧
      ((∃ t, s.async_.activity = .initialised t) ∨ s.async_.Attended))

/-- What becomes of the functions that `runInThisLoop` has accepted. -/
structure RunsAll (events : List (Event τ φ)) (s : EventLoop τ φ) : Prop where
  /-- Each is run once, or is still in the queue, or with `process`. -/
  once : (events.filterMap Event.accepted).Perm
    (events.filterMap Event.executed ++ s.async_.waiting)
  /-- When `run` has returned they have all been run. -/
  returned : s.status_ = .Stop →
    (events.filterMap Event.accepted).Perm (events.filterMap Event.executed)
  /-- Nothing is left behind in the queue. -/
  kept : s.async_.async.callbacks_ ≠ [] → s.WillBeRun

omit [DecidableEq τ] [DecidableEq φ] in
/-- Every event that runs a function at once, or pushes or calls one, is of one of the kinds. -/
theorem filterMap_orElse_perm {α β : Type} {f g : α → Option β} (hor : ∀ a, f a = none ∨ g a = none)
    (as : List α) : (as.filterMap fun a => f a <|> g a).Perm (as.filterMap f ++ as.filterMap g) := by
  induction as with
  | nil => exact .nil
  | cons a as ih =>
    cases hf : f a with
    | some b =>
      have hg : g a = none := (hor a).resolve_left (by simp [hf])
      simpa [hf, hg] using ih
    | none =>
      cases hg : g a with
      | none => simpa [hf, hg] using ih
      | some b =>
        simp only [List.filterMap_cons, hf, hg]
        exact (ih.cons b).trans List.perm_middle.symm

omit [DecidableEq τ] [DecidableEq φ] in
theorem ranNow_or_ofAsync (e : Event τ φ) : e.ranNow = none ∨ e.ofAsync = none := by
  cases e with
  | async a => exact .inl rfl
  | _ => exact .inr rfl

/-- What has been accepted has been run, or waits. -/
theorem accepted_perm (h : Run (fun s e s' => step s e = some s') new events s) :
    (events.filterMap Event.accepted).Perm (events.filterMap Event.executed ++ s.async_.waiting) := by
  have hpushed := AsyncSystem.pushed_eq (async_of_run h)
  rw [List.filterMap_filterMap, List.filterMap_filterMap] at hpushed
  have haccepted := filterMap_orElse_perm
    (f := Event.ranNow) (g := fun e : Event τ φ => e.ofAsync.bind AsyncSystem.Event.pushed)
    (fun e => (ranNow_or_ofAsync e).imp id fun h => by rw [h]; rfl) events
  have hexecuted := filterMap_orElse_perm
    (f := Event.ranNow) (g := fun e : Event τ φ => e.ofAsync.bind AsyncSystem.Event.executed)
    (fun e => (ranNow_or_ofAsync e).imp id fun h => by rw [h]; rfl) events
  apply haccepted.trans
  rw [hpushed, ← List.append_assoc]
  exact hexecuted.symm.append_right _

/-- **Every function that `runInThisLoop` accepts is run exactly once**, and none is left behind, in
every run that closes the async handle only while the queue is empty, pushes nothing from then on,
and uses the handle only as long as it exists; and nothing faults. -/
theorem runs_all (h : OrderlyRun events s) :
    RunsAll events s ∧ ∀ e x, s.Orderly e → s.outcome e = some x → Exec.Returns x := by
  have honce := accepted_perm h.run
  have hasync := async_of_run h.run
  refine ⟨⟨honce, fun hstop => ?_, fun hne => ?_⟩, fun e x hok hx => returns_of_orderly h.run hok hx⟩
  · obtain ⟨hdeleted, hnone⟩ := h.inv.stopped hstop
    have hidle := h.inv.resting hnone
    have hempty : s.async_.async.callbacks_ = [] := by
      rcases h.inv.emptied (AsyncSystem.closed_iff.mpr (.inr hdeleted)) with hempty | hswap
      · exact hempty
      · simp [AsyncSystem.AboutToSwap, hidle] at hswap
    simpa [AsyncSystem.waiting, hidle, hempty, Activity.batch] using honce
  · by_cases hswap : s.async_.AboutToSwap
    · exact .inr (.inr (.inl hswap))
    · cases hhandle : s.async_.async.handle_ with
      | none => exact .inl hhandle
      | some handle =>
        cases handle with
        | allocated => exact .inr (.inl hhandle)
        | active =>
          refine .inr (.inr (.inr ⟨hhandle, ?_⟩))
          by_cases hinit : ∃ t, s.async_.activity = .initialised t
          · exact .inl hinit
          · refine .inr (AsyncSystem.noneForgotten_of_run hasync hhandle ?_ ?_ hne)
            · exact fun t ht => hinit ⟨t, ht⟩
            · exact fun t ht => hswap (AsyncSystem.exists_woken_iff.mpr ⟨t, ht⟩)
        | closing =>
          exact absurd (h.inv.emptied (AsyncSystem.closed_iff.mpr (.inl hhandle))) (by simp [hne, hswap])
        | deleted =>
          exact absurd (h.inv.emptied (AsyncSystem.closed_iff.mpr (.inr hhandle))) (by simp [hne, hswap])

/-- A loop is run, a function is queued, and the loop is stopped; once it has stopped another
function is run at once. -/
def sampleEvents : List (Event ℕ ℕ) :=
  [.runInThisLoop 1 (some 7) false, .isStoped 1 7 false, .async (.push 1 7), .async (.test 1),
    .run 0 .default, .async (.init 0), .async (.asyncInit 0), .async (.initSend 0), .start 0,
    .async (.wake 0 1), .async (.swap 0), .async (.call 0 7), .runInThisLoop 0 (some 8) true, .stop 0,
    .async (.close 0), .async (.ret 0), .async (.finish 0), .async (.closed 0), .ended 0,
    .runInThisLoop 1 (some 9) false, .isStoped 1 9 true]

/-- A step that meets the condition. -/
def orderlyStep (s : EventLoop τ φ) (e : Event τ φ) : Option (EventLoop τ φ) :=
  if s.Orderly e then step s e else none

theorem orderlyRun_of_foldlM (h : events.foldlM orderlyStep new = some s) : OrderlyRun events s := by
  refine (Run.of_foldlM h).mono fun s e s' hstep => ?_
  simpa [orderlyStep] using hstep

theorem runs_all_sample : ∃ s : EventLoop ℕ ℕ, RunsAll sampleEvents s ∧ s.status_ = .Stop ∧
    sampleEvents.filterMap Event.executed = [7, 8, 9] := by
  obtain ⟨s, hs⟩ := Option.isSome_iff_exists.mp
    (show (sampleEvents.foldlM orderlyStep (new : EventLoop ℕ ℕ)).isSome from by decide +kernel)
  refine ⟨s, (runs_all (orderlyRun_of_foldlM hs)).1, ?_, by decide⟩
  cases hs
  rfl

/-- A function is posted while the loop runs, and the loop is stopped before libuv has served the
send. -/
def lostEvents : List (Event ℕ ℕ) :=
  [.run 0 .default, .async (.init 0), .async (.asyncInit 0), .async (.initSend 0), .start 0,
    .runInThisLoop 1 (some 7) false, .isStoped 1 7 false, .async (.push 1 7), .async (.test 1),
    .async (.send 1), .stop 0, .async (.close 0), .async (.closed 0), .ended 0]

/-- **A function that is queued when the loop is stopped is lost.** -/
theorem not_runs_all : ∃ s : EventLoop ℕ ℕ,
    Run (fun s e s' => step s e = some s') new lostEvents s ∧ s.status_ = .Stop ∧
      lostEvents.filterMap Event.accepted = [7] ∧ lostEvents.filterMap Event.executed = [] ∧
      ¬ RunsAll lostEvents s := by
  obtain ⟨s, hs⟩ := Option.isSome_iff_exists.mp
    (show (lostEvents.foldlM step (new : EventLoop ℕ ℕ)).isSome from by decide +kernel)
  have hstop : s.status_ = .Stop := by
    cases hs
    rfl
  have haccepted : lostEvents.filterMap Event.accepted = [7] := by decide
  have hexecuted : lostEvents.filterMap Event.executed = [] := by decide
  refine ⟨s, Run.of_foldlM hs, hstop, haccepted, hexecuted, fun h => ?_⟩
  have hperm := h.returned hstop
  rw [haccepted, hexecuted] at hperm
  simp at hperm

end

end EventLoop

end UvCpp
