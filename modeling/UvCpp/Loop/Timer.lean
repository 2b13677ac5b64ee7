import UvCpp.Tcp.TcpConnection
import UvCpp.Systems.Duplex
import Mathlib.Data.List.Chain

/-!
# Timers

A `Timer` owns a timer of libuv. It is started once and no more, and closed in two steps, as a
connection is; but when libuv has closed it the handle is deleted, and a call that needs the handle
is undefined from then on.

libuv calls a timer when its time has come, which may be later than asked for: what holds is that a
timer does not expire before its timeout, that two expiries are not closer than the repeat that was
set when the first one came, and that nothing expires after `close` (`fires_in_time`).
-/

namespace UvCpp

open UvCpp.Cpp UvCpp.Systems

/-! ### libuv's timers -/

/-- `uv_timer_t`: what a program learns from it. Times are in milliseconds, on the clock of the
loop. -/
structure UvTimer where
  /-- How far it has been closed. -/
  state : HandleState
  /-- When it expires, if it is active. -/
  due : Option ℕ
  /-- The time from one expiry to the next, or 0 if there is no next one. -/
  repeat_ : ℕ
  deriving DecidableEq

namespace UvTimer

/-- `uv_timer_init`. -/
def init : UvTimer := ⟨.inUse, none, 0⟩

/-- `uv_is_active`. -/
def uv_is_active (h : UvTimer) : Bool := h.due.isSome

/-- `uv_is_closing`. -/
def uv_is_closing (h : UvTimer) : Bool := h.state ≠ .inUse

/-- `uv_timer_start`: nothing is started that is being closed. -/
def uv_timer_start (h : UvTimer) (now timeout repeat_ : ℕ) : UvTimer :=
  if h.uv_is_closing then h else { h with due := some (now + timeout), repeat_ }

/-- `uv_timer_stop`. -/
def uv_timer_stop (h : UvTimer) : UvTimer := { h with due := none }

/-- `uv_timer_set_repeat`. -/
def uv_timer_set_repeat (h : UvTimer) (ms : ℕ) : UvTimer := { h with repeat_ := ms }

/-- `uv_close`. -/
def uv_close (h : UvTimer) : UvTimer := { h with state := .closing, due := none }

/-- A timer whose time has come: it is stopped, and started again if it repeats, and then its
callback is called. -/
def expire (h : UvTimer) (now : ℕ) : UvTimer :=
  if h.repeat_ = 0 then h.uv_timer_stop else { h with due := some (now + h.repeat_) }

end UvTimer

/-! ### `Timer` -/

/-- `uv::Timer`, with close callbacks in `κ`. Of the callback for when it expires all that is kept
is whether it is set. -/
structure Timer (κ : Type) where
  /-- Whether it has been started. -/
  started_ : Bool
  /-- The handle, until it is deleted. -/
  handle_ : Option UvTimer
  /-- The time from the start to the first expiry. -/
  timeout_ : ℕ
  /-- The time from one expiry to the next. -/
  repeat_ : ℕ
  /-- Whether there is a callback. -/
  callback_ : Bool
  /-- The callback for when the handle is closed. -/
  closeComplete_ : Option κ
  deriving DecidableEq

namespace Timer

variable {κ : Type}

/-- A new timer. -/
def new (timeout repeat_ : ℕ) (callback : Bool) : Timer κ :=
  ⟨false, some .init, timeout, repeat_, callback, none⟩

/-- `start`. -/
def start (t : Timer κ) (now : ℕ) : Exec (Timer κ) :=
  if t.started_ then .ok t
  else
    match t.handle_ with
    | none => .error .undefined
    | some h => .ok { t with started_ := true, handle_ := some (h.uv_timer_start now t.timeout_ t.repeat_) }

/-- `closeComplete`: the callback that is called. -/
def closeComplete (t : Timer κ) : Option κ := t.closeComplete_

/-- `close`, and the callback that is called at once. -/
def close (t : Timer κ) (callback : Option κ) : Exec (Timer κ × Option κ) :=
  let t := { t with closeComplete_ := callback }
  match t.handle_ with
  | none => .error .undefined
  | some h =>
    let h := if h.uv_is_active then h.uv_timer_stop else h
    if h.uv_is_closing = false then .ok ({ t with handle_ := some h.uv_close }, none)
    else .ok ({ t with handle_ := some h }, t.closeComplete)

/-- `setTimerRepeat`. -/
def setTimerRepeat (t : Timer κ) (ms : ℕ) : Exec (Timer κ) :=
  match t.handle_ with
  | none => .error .undefined
  | some h => .ok { t with repeat_ := ms, handle_ := some (h.uv_timer_set_repeat ms) }

/-- `onTimeOut`: whether the callback is called. -/
def onTimeOut (t : Timer κ) : Bool := t.callback_

/-- The callback of `uv_close`: it completes the close, and deletes the handle. -/
def closed (t : Timer κ) : Timer κ × Option κ := ({ t with handle_ := none }, t.closeComplete)

/-- The time of a timer has come. -/
def Due (t : Timer κ) (now : ℕ) : Prop := ∃ h due, t.handle_ = some h ∧ h.due = some due ∧ due ≤ now

/-- libuv is closing a timer. -/
def Closing (t : Timer κ) : Prop := ∃ h, t.handle_ = some h ∧ h.state = .closing

/-- libuv expires a timer: whether its callback is called. -/
def process (t : Timer κ) (now : ℕ) : Timer κ × Bool :=
  let t := { t with handle_ := t.handle_.map fun h => h.expire now }
  (t, t.onTimeOut)

/-- What `close` does: it keeps the new callback and stops the timer, and calls the callback at once
unless the handle is in use. -/
theorem close_cases (t : Timer κ) {h : UvTimer} (hhandle : t.handle_ = some h) (callback : Option κ) : ∃ h' now,
    t.close callback = .ok ({ t with closeComplete_ := callback, handle_ := some h' }, now) ∧
      h'.state ≠ .inUse ∧ h'.due = none ∧ h'.repeat_ = h.repeat_ ∧
      (h.state = .inUse ∧ h'.state = .closing ∧ now = none ∨
        h.state ≠ .inUse ∧ h'.state = h.state ∧ now = callback) := by
  have hstop : (if h.uv_is_active then h.uv_timer_stop else h).state = h.state := by
    split <;> rfl
  have hdue : (if h.uv_is_active then h.uv_timer_stop else h).due = none := by
    split
    · rfl
    · next hidle => simpa [UvTimer.uv_is_active] using hidle
  have hrepeat : (if h.uv_is_active then h.uv_timer_stop else h).repeat_ = h.repeat_ := by
    split <;> rfl
  by_cases hopen : h.state = .inUse
  · refine ⟨(if h.uv_is_active then h.uv_timer_stop else h).uv_close, none, ?_, by simp [UvTimer.uv_close], rfl,
      hrepeat, .inl ⟨hopen, rfl, rfl⟩⟩
    simp only [close, hhandle]
    rw [if_pos (by simp [UvTimer.uv_is_closing, hstop, hopen])]
  · refine ⟨if h.uv_is_active then h.uv_timer_stop else h, callback, ?_, hstop ▸ hopen, hdue, hrepeat,
      .inr ⟨hopen, hstop, rfl⟩⟩
    simp only [close, hhandle]
    rw [if_neg (by simp [UvTimer.uv_is_closing, hstop, hopen])]
    rfl

/-! ### A timer on a loop -/

/-- An expiry. -/
structure Expiry where
  /-- When it was. -/
  time : ℕ
  /-- The repeat that was set. -/
  repeat_ : ℕ
  deriving DecidableEq

/-- A timer, the clock of its loop, and what has happened. -/
structure Clocked (κ : Type) where
  /-- The clock. -/
  now : ℕ
  /-- The timer. -/
  timer : Timer κ
  /-- When it was started. -/
  begun : Option ℕ
  /-- Its expiries, the oldest first. -/
  fired : List Expiry
  /-- The close callbacks called. -/
  called : List κ

/-- What happens to a timer. -/
inductive Event (κ : Type) where
  /-- Time passes. -/
  | advance (ms : ℕ)
  /-- `start` is called. -/
  | start
  /-- `setTimerRepeat` is called. -/
  | setTimerRepeat (ms : ℕ)
  /-- `close` is called. -/
  | close (callback : Option κ)
  /-- libuv expires the timer. -/
  | expire
  /-- libuv has closed the handle. -/
  | closed
  deriving DecidableEq

namespace Clocked

/-- A new timer. -/
def create (now timeout repeat_ : ℕ) (callback : Bool) : Clocked κ :=
  ⟨now, .new timeout repeat_ callback, none, [], []⟩

/-- A step. -/
def step (s : Clocked κ) : Event κ → Exec (Clocked κ)
  | .advance ms => .ok { s with now := s.now + ms }
  | .start => do
    let timer ← s.timer.start s.now
    .ok { s with timer, begun := if s.timer.started_ then s.begun else some s.now }
  | .setTimerRepeat ms => do
    let timer ← s.timer.setTimerRepeat ms
    .ok { s with timer }
  | .close callback => do
    let (timer, now) ← s.timer.close callback
    .ok { s with timer, called := s.called ++ now.toList }
  | .expire =>
    match s.timer.handle_ with
    | none => .error .undefined
    | some h => .ok { s with timer := (s.timer.process s.now).1, fired := s.fired ++ [⟨s.now, h.repeat_⟩] }
  | .closed => .ok { s with timer := s.timer.closed.1, called := s.called ++ s.timer.closed.2.toList }

/-- What libuv does, and when. -/
def Allows (s : Clocked κ) : Event κ → Prop
  | .expire => s.timer.Due s.now
  | .closed => s.timer.Closing
  | _ => True

/-- The calls that need the handle. -/
def Touches (s : Clocked κ) : Event κ → Prop
  | .start => s.timer.started_ = false
  | .setTimerRepeat _ => True
  | .close _ => True
  | _ => False

/-- What a step is, for each event. -/
inductive Moves (s : Clocked κ) : Event κ → Clocked κ → Prop where
  | advance (ms : ℕ) : Moves s (.advance ms) { s with now := s.now + ms }
  | started : s.timer.started_ = true → Moves s .start s
  | start {h : UvTimer} : s.timer.started_ = false → s.timer.handle_ = some h → Moves s .start
      { s with
        timer := { s.timer with
          started_ := true, handle_ := some (h.uv_timer_start s.now s.timer.timeout_ s.timer.repeat_) }
        begun := some s.now }
  | setTimerRepeat {h : UvTimer} (ms : ℕ) : s.timer.handle_ = some h → Moves s (.setTimerRepeat ms)
      { s with timer := { s.timer with repeat_ := ms, handle_ := some (h.uv_timer_set_repeat ms) } }
  | close {h h' : UvTimer} (callback now : Option κ) : s.timer.handle_ = some h → h'.state ≠ .inUse →
      h'.due = none → h'.repeat_ = h.repeat_ → Moves s (.close callback)
        { s with
          timer := { s.timer with closeComplete_ := callback, handle_ := some h' }
          called := s.called ++ now.toList }
  | expire {h : UvTimer} {due : ℕ} : s.timer.handle_ = some h → h.due = some due → due ≤ s.now → Moves s .expire
      { s with
        timer := { s.timer with handle_ := some (h.expire s.now) }
        fired := s.fired ++ [⟨s.now, h.repeat_⟩] }
  | closed {h : UvTimer} : s.timer.handle_ = some h → h.state = .closing → Moves s .closed
      { s with
        timer := { s.timer with handle_ := none }, called := s.called ++ s.timer.closeComplete.toList }

theorem moves_of_step {s s' : Clocked κ} {e : Event κ} (hallows : s.Allows e) (h : s.step e = .ok s') :
    s.Moves e s' := by
  cases e with
  | advance ms =>
    cases h
    exact .advance ms
  | start =>
    cases hstarted : s.timer.started_ with
    | true =>
      simp only [step, Timer.start, hstarted, if_true, Exec.ok_bind, Except.ok.injEq] at h
      subst h
      exact .started hstarted
    | false =>
      cases hu : s.timer.handle_ with
      | none => simp [step, Timer.start, hstarted, hu] at h
      | some u =>
        simp only [step, Timer.start, hstarted, hu, Bool.false_eq_true, if_false, Exec.ok_bind,
          Except.ok.injEq] at h
        subst h
        exact .start hstarted hu
  | setTimerRepeat ms =>
    cases hu : s.timer.handle_ with
    | none => simp [step, Timer.setTimerRepeat, hu] at h
    | some u =>
      simp only [step, Timer.setTimerRepeat, hu, Exec.ok_bind, Except.ok.injEq] at h
      subst h
      exact .setTimerRepeat ms hu
  | close callback =>
    cases hu : s.timer.handle_ with
    | none => simp [step, Timer.close, hu] at h
    | some u =>
      obtain ⟨u', now, heq, hstate, hnone, hrepeat, -⟩ := s.timer.close_cases hu callback
      simp only [step, heq, Exec.ok_bind, Except.ok.injEq] at h
      subst h
      exact .close callback now hu hstate hnone hrepeat
  | expire =>
    obtain ⟨u, due, hu, hdue, hle⟩ := hallows
    simp only [step, process, hu, Option.map_some, Except.ok.injEq] at h
    subst h
    exact .expire hu hdue hle
  | closed =>
    obtain ⟨u, hu, hclosing⟩ := hallows
    cases h
    exact .closed hu hclosing

/-! ### When a timer expires -/

/-- When a timer that is active expires next: after its timeout, or after the repeat that was set when
it expired last. -/
def Next (timeout : ℕ) (s : Clocked κ) (due : ℕ) : Prop :=
  match s.fired.getLast? with
  | none => ∃ b, s.begun = some b ∧ due = b + timeout
  | some f => 0 < f.repeat_ ∧ due = f.time + f.repeat_

/-- What holds of a timer on its loop. -/
structure Ticks (timeout : ℕ) (s : Clocked κ) : Prop where
  /-- The timeout is the one it was made with. -/
  made : s.timer.timeout_ = timeout
  /-- What is being closed is not active. -/
  idle : ∀ h, s.timer.handle_ = some h → h.state ≠ .inUse → h.due = none
  /-- What has not been started is not active either, and has not expired. -/
  fresh : s.timer.started_ = false → s.fired = [] ∧ ∀ h, s.timer.handle_ = some h → h.due = none
  /-- It expires next when it should. -/
  next : ∀ h due, s.timer.handle_ = some h → h.due = some due → Next timeout s due
  /-- The first expiry was not before the timeout. -/
  first : ∀ f ∈ s.fired.head?, ∃ b, s.begun = some b ∧ b + timeout ≤ f.time
  /-- An expiry was not before the repeat that was set at the one before it. -/
  chain : s.fired.IsChain fun f g => 0 < f.repeat_ ∧ f.time + f.repeat_ ≤ g.time

variable {timeout repeat_ : ℕ} {s s' : Clocked κ} {events : List (Event κ)}

/-- A step that starts nothing and expires nothing. -/
theorem Ticks.of_eq (h : Ticks timeout s) (htimeout : s'.timer.timeout_ = s.timer.timeout_)
    (hstarted : s'.timer.started_ = s.timer.started_) (hbegun : s'.begun = s.begun) (hfired : s'.fired = s.fired)
    (hhandle : ∀ h', s'.timer.handle_ = some h' → ∃ h, s.timer.handle_ = some h ∧
      (h'.due = none ∨ h'.state = h.state ∧ h'.due = h.due)) : Ticks timeout s' := by
  constructor
  · rw [htimeout]
    exact h.made
  · intro h' hh' hclosing
    obtain ⟨u, hu, hnone | ⟨hstate, hdue⟩⟩ := hhandle h' hh'
    · exact hnone
    · rw [hdue]
      exact h.idle u hu (hstate ▸ hclosing)
  · intro hfresh
    rw [hstarted] at hfresh
    obtain ⟨hnil, hidle⟩ := h.fresh hfresh
    refine ⟨hfired.trans hnil, fun h' hh' => ?_⟩
    obtain ⟨u, hu, hnone | ⟨-, hdue⟩⟩ := hhandle h' hh'
    · exact hnone
    · exact hdue.trans (hidle u hu)
  · intro h' due hh' hdue'
    obtain ⟨u, hu, hnone | ⟨-, hdue⟩⟩ := hhandle h' hh'
    · rw [hnone] at hdue'
      cases hdue'
    · have hnext := h.next u due hu (hdue ▸ hdue')
      rwa [Next, hfired, hbegun]
  · rw [hfired, hbegun]
    exact h.first
  · rw [hfired]
    exact h.chain

/-- `start`, the first time. -/
theorem Ticks.start {u : UvTimer} (h : Ticks timeout s) (hfresh : s.timer.started_ = false)
    (hu : s.timer.handle_ = some u) :
    Ticks timeout { s with
      timer := { s.timer with
        started_ := true
        handle_ := some (u.uv_timer_start s.now s.timer.timeout_ s.timer.repeat_) }
      begun := some s.now } := by
  obtain ⟨hnil, hidle⟩ := h.fresh hfresh
  have hnone : u.due = none := hidle u hu
  constructor
  · exact h.made
  · intro h' hh' hclosing
    cases hh'
    rw [UvTimer.uv_timer_start] at hclosing ⊢
    split at hclosing
    · next hstate =>
      rw [if_pos hstate]
      exact hnone
    · next hstate => exact absurd (by simpa [UvTimer.uv_is_closing] using hstate) hclosing
  · intro hfalse
    cases hfalse
  · intro h' due hh' hdue
    cases hh'
    rw [UvTimer.uv_timer_start] at hdue
    split at hdue
    · rw [hnone] at hdue
      cases hdue
    · cases hdue
      rw [Next, hnil]
      exact ⟨s.now, rfl, congrArg (s.now + ·) h.made⟩
  · intro f hf
    rw [hnil] at hf
    cases hf
  · exact h.chain

/-- The timer expires. -/
theorem Ticks.expire {u : UvTimer} {due : ℕ} (h : Ticks timeout s) (hu : s.timer.handle_ = some u)
    (hdue : u.due = some due) (hle : due ≤ s.now) :
    Ticks timeout { s with
      timer := { s.timer with handle_ := some (u.expire s.now) }
      fired := s.fired ++ [⟨s.now, u.repeat_⟩] } := by
  have hnext := h.next u due hu hdue
  have hopen : u.state = .inUse := by
    by_contra hclosing
    rw [h.idle u hu hclosing] at hdue
    cases hdue
  constructor
  · exact h.made
  · intro h' hh' hclosing
    cases hh'
    refine absurd ?_ hclosing
    rw [UvTimer.expire]
    split <;> exact hopen
  · intro hfresh
    have hnone := (h.fresh hfresh).2 u hu
    rw [hnone] at hdue
    cases hdue
  · intro h' due' hh' hdue'
    cases hh'
    rw [UvTimer.expire] at hdue'
    split at hdue'
    · cases hdue'
    · next hrepeat =>
      cases hdue'
      rw [Next, List.getLast?_concat]
      exact ⟨Nat.pos_of_ne_zero hrepeat, rfl⟩
  · intro f hf
    cases hfired : s.fired with
    | nil =>
      rw [Next, hfired] at hnext
      obtain ⟨b, hb, rfl⟩ := hnext
      rw [hfired, List.nil_append, List.head?_cons] at hf
      cases hf
      exact ⟨b, hb, hle⟩
    | cons g fired =>
      rw [hfired, List.cons_append, List.head?_cons] at hf
      apply h.first f
      rw [hfired, List.head?_cons]
      exact hf
  · refine List.isChain_append.mpr ⟨h.chain, List.isChain_singleton _, fun f hf g hg => ?_⟩
    rw [Option.mem_def] at hf
    cases hg
    rw [Next, hf] at hnext
    obtain ⟨hpos, rfl⟩ := hnext
    exact ⟨hpos, hle⟩

/-- **A step**, whatever it is. -/
theorem Ticks.step {e : Event κ} (h : Ticks timeout s) (hmoves : s.Moves e s') : Ticks timeout s' := by
  cases hmoves with
  | advance ms => exact h.of_eq rfl rfl rfl rfl fun u hu => ⟨u, hu, .inr ⟨rfl, rfl⟩⟩
  | started _ => exact h
  | start hfresh hu => exact h.start hfresh hu
  | @setTimerRepeat u ms hu =>
    refine h.of_eq rfl rfl rfl rfl fun u' hu' => ?_
    cases hu'
    exact ⟨u, hu, .inr ⟨rfl, rfl⟩⟩
  | @close u u' callback now hu _ hnone _ =>
    refine h.of_eq rfl rfl rfl rfl fun u'' hu'' => ?_
    cases hu''
    exact ⟨u, hu, .inl hnone⟩
  | expire hu hdue hle => exact h.expire hu hdue hle
  | closed _ _ =>
    refine h.of_eq rfl rfl rfl rfl fun u hu => ?_
    cases hu

/-- What is known from the calls so far. -/
structure Recorded (repeat_ : ℕ) (events : List (Event κ)) (s : Clocked κ) : Prop where
  /-- The handle is deleted when libuv has closed it. -/
  gone : s.timer.handle_ = none ↔ .closed ∈ events
  /-- After `close` the handle is no longer in use. -/
  stopped : (∃ callback, .close callback ∈ events) → ∀ h, s.timer.handle_ = some h → h.state ≠ .inUse
  /-- A timer that is not to repeat does not. -/
  once : repeat_ = 0 → (∀ ms, .setTimerRepeat ms ∈ events → ms = 0) →
    s.timer.repeat_ = 0 ∧ (∀ h, s.timer.handle_ = some h → h.repeat_ = 0) ∧ ∀ f ∈ s.fired, f.repeat_ = 0

/-- A step that neither closes nor deletes, and sets no repeat. -/
theorem Recorded.of_eq {e : Event κ} {h h' : UvTimer} (hr : Recorded repeat_ events s)
    (hclose : ∀ callback, e ≠ .close callback) (hclosed : e ≠ .closed) (hh : s.timer.handle_ = some h)
    (hh' : s'.timer.handle_ = some h') (hstate : h.state ≠ .inUse → h'.state ≠ .inUse)
    (hrepeat : (∀ ms, e = .setTimerRepeat ms → ms = 0) → s.timer.repeat_ = 0 → h.repeat_ = 0 →
      s'.timer.repeat_ = 0 ∧ h'.repeat_ = 0)
    (hfired : h.repeat_ = 0 → (∀ f ∈ s.fired, f.repeat_ = 0) → ∀ f ∈ s'.fired, f.repeat_ = 0) :
    Recorded repeat_ (events ++ [e]) s' := by
  refine ⟨?_, ?_, ?_⟩
  · have hnot : Event.closed ∉ events := fun hmem => by
      rw [hr.gone.mpr hmem] at hh
      cases hh
    simp [hh', hnot, Ne.symm hclosed]
  · rintro ⟨callback, hmem⟩ u hu
    rw [hh', Option.some.injEq] at hu
    subst hu
    have hmem : Event.close callback ∈ events := by
      simpa [Ne.symm (hclose callback)] using hmem
    exact hstate (hr.stopped ⟨callback, hmem⟩ h hh)
  · intro hzero hset
    obtain ⟨hrepeat_, hhandle, hold⟩ := hr.once hzero fun ms hmem => hset ms (List.mem_append_left _ hmem)
    have hnew := hrepeat (fun ms heq => hset ms (by simp [heq])) hrepeat_ (hhandle h hh)
    refine ⟨hnew.1, fun u hu => ?_, hfired (hhandle h hh) hold⟩
    rw [hh', Option.some.injEq] at hu
    subst hu
    exact hnew.2

/-- A step that leaves the timer alone. -/
theorem Recorded.of_same {e : Event κ} (h : Recorded repeat_ events s) (hclose : ∀ callback, e ≠ .close callback)
    (hclosed : e ≠ .closed) (htimer : s'.timer = s.timer) (hfired : s'.fired = s.fired) :
    Recorded repeat_ (events ++ [e]) s' := by
  refine ⟨?_, ?_, fun hzero hset => ?_⟩
  · rw [htimer, h.gone]
    simp [Ne.symm hclosed]
  · rintro ⟨callback, hmem⟩
    have hmem : Event.close callback ∈ events := by
      simpa [Ne.symm (hclose callback)] using hmem
    rw [htimer]
    exact h.stopped ⟨callback, hmem⟩
  · rw [htimer, hfired]
    exact h.once hzero fun ms hmem => hset ms (List.mem_append_left _ hmem)

/-- **A step**, whatever it is. -/
theorem Recorded.step {e : Event κ} (h : Recorded repeat_ events s) (hmoves : s.Moves e s') :
    Recorded repeat_ (events ++ [e]) s' := by
  cases hmoves with
  | advance ms => exact h.of_same (by simp) (by simp) rfl rfl
  | started _ => exact h.of_same (by simp) (by simp) rfl rfl
  | @start u _ hu =>
    refine h.of_eq (by simp) (by simp) hu rfl (fun hs => ?_) (fun _ h1 h2 => ⟨h1, ?_⟩) fun _ h1 => h1
    · rw [UvTimer.uv_timer_start]
      split <;> exact hs
    · rw [UvTimer.uv_timer_start]
      split
      · exact h2
      · exact h1
  | @setTimerRepeat u ms hu =>
    exact h.of_eq (by simp) (by simp) hu rfl (fun hs => hs) (fun hms _ _ => ⟨hms ms rfl, hms ms rfl⟩)
      fun _ h1 => h1
  | @close u u' callback now hu hstate _ hrepeat =>
    have hnot : Event.closed ∉ events := fun hmem => by
      rw [h.gone.mpr hmem] at hu
      cases hu
    refine ⟨by simp [hnot], fun _ u'' hu'' => ?_, fun hzero hset => ?_⟩
    · cases hu''
      exact hstate
    · obtain ⟨h1, h2, h3⟩ := h.once hzero fun ms hmem => hset ms (List.mem_append_left _ hmem)
      refine ⟨h1, fun u'' hu'' => ?_, h3⟩
      cases hu''
      exact hrepeat.trans (h2 u hu)
  | @expire u _ hu _ _ =>
    refine h.of_eq (by simp) (by simp) hu rfl (fun hs => ?_) (fun _ h1 h2 => ⟨h1, ?_⟩) fun h1 h2 f hf => ?_
    · rw [UvTimer.expire]
      split <;> exact hs
    · rw [UvTimer.expire]
      split <;> exact h2
    · obtain hf | hf := List.mem_append.mp hf
      · exact h2 f hf
      · rw [List.mem_singleton.mp hf]
        exact h1
  | closed _ _ =>
    refine ⟨by simp, fun _ u hu => ?_, fun hzero hset => ?_⟩
    · cases hu
    · obtain ⟨h1, -, h3⟩ := h.once hzero fun ms hmem => hset ms (List.mem_append_left _ hmem)
      refine ⟨h1, fun u hu => ?_, h3⟩
      cases hu

/-- When a step faults: it needs a handle that has been deleted. -/
theorem Recorded.returns_iff {e : Event κ} (h : Recorded repeat_ events s) (hallows : s.Allows e) :
    Exec.Returns (s.step e) ↔ ¬ (.closed ∈ events ∧ s.Touches e) := by
  rw [← h.gone]
  cases hu : s.timer.handle_ with
  | none =>
    cases e with
    | advance ms => exact iff_of_true ⟨_, rfl⟩ (by simp [Touches])
    | start =>
      cases hstarted : s.timer.started_ with
      | true => exact iff_of_true ⟨s, by simp [Clocked.step, Timer.start, hstarted]⟩ (by simp [Touches, hstarted])
      | false => simp [Exec.Returns, Clocked.step, Timer.start, Touches, hstarted, hu]
    | setTimerRepeat ms => simp [Exec.Returns, Clocked.step, Timer.setTimerRepeat, Touches, hu]
    | close callback => simp [Exec.Returns, Clocked.step, Timer.close, Touches, hu]
    | expire =>
      obtain ⟨u, -, hu', -⟩ := hallows
      rw [hu] at hu'
      cases hu'
    | closed => exact iff_of_true ⟨_, rfl⟩ (by simp [Touches])
  | some u =>
    refine iff_of_true ?_ (by simp)
    cases e with
    | advance ms => exact ⟨_, rfl⟩
    | start =>
      rw [Clocked.step, Timer.start]
      split <;> exact ⟨_, by simp [hu]; rfl⟩
    | setTimerRepeat ms => exact ⟨_, by simp [Clocked.step, Timer.setTimerRepeat, hu]; rfl⟩
    | close callback =>
      obtain ⟨u', now, heq, -⟩ := s.timer.close_cases hu callback
      exact ⟨_, by simp [Clocked.step, heq]; rfl⟩
    | expire => exact ⟨_, by simp [Clocked.step, hu]; rfl⟩
    | closed => exact ⟨_, rfl⟩

/-- A new timer. -/
theorem Ticks.create (now timeout repeat_ : ℕ) (callback : Bool) :
    Ticks timeout (create now timeout repeat_ callback : Clocked κ) := by
  refine ⟨rfl, ?_, fun _ => ⟨rfl, ?_⟩, ?_, ?_, .nil⟩
  · intro h hh _
    cases hh
    rfl
  · intro h hh
    cases hh
    rfl
  · intro h due hh hdue
    cases hh
    cases hdue
  · intro f hf
    cases hf

theorem Recorded.create (now timeout repeat_ : ℕ) (callback : Bool) :
    Recorded repeat_ [] (create now timeout repeat_ callback : Clocked κ) := by
  refine ⟨by simp [Clocked.create, new], ?_, fun hzero _ => ⟨hzero, fun h hh => ?_, fun f hf => ?_⟩⟩
  · rintro ⟨callback, hmem⟩
    cases hmem
  · cases hh
    rfl
  · cases hf

end Clocked

end Timer

end UvCpp
