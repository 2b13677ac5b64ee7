import UvCpp.Cpp.Strings
import UvCpp.Systems.Run
import Mathlib.Data.List.Nodup
import Mathlib.Data.List.ReduceOption

/-!
# Connections

A `TcpConnection` owns a libuv handle. Closing one takes two steps: `close` asks libuv to close
the handle and keeps a callback, and when libuv has closed it, `CloseComplete` calls the callback.
A `close` of a handle that is closing or closed already calls its callback at once.

There is one place for the callback. So of several calls to `close` before libuv is done, the
last one's callback is called twice and the first one's never (`calledOnce_iff`).
-/

namespace UvCpp

open UvCpp.Cpp UvCpp.Systems

/-! ### libuv's handles -/

/-- How far a handle has been closed. -/
inductive HandleState where
  /-- It has not. -/
  | inUse
  /-- `uv_close` has been called, and its callback has not. -/
  | closing
  /-- The callback has been called: libuv is done with it. -/
  | closed
  deriving DecidableEq

/-- `uv_tcp_t`: what a program learns from it. -/
structure UvTcp where
  /-- How far it has been closed. -/
  state : HandleState
  /-- Whether it is being read. -/
  reading : Bool
  /-- How many writes have not come to an end. -/
  writes : ℕ
  /-- How many shutdowns have not come to an end. -/
  shutdowns : ℕ
  /-- How often `uv_close` has been called for it. -/
  closes : ℕ
  deriving DecidableEq

namespace UvTcp

/-- `uv_tcp_init`. -/
def init : UvTcp := ⟨.inUse, false, 0, 0, 0⟩

/-- `uv_read_start`. -/
def uv_read_start (h : UvTcp) : UvTcp := { h with reading := true }

/-- `uv_read_stop`. -/
def uv_read_stop (h : UvTcp) : UvTcp := { h with reading := false }

/-- `uv_is_active`. -/
def uv_is_active (h : UvTcp) : Bool := h.reading || 0 < h.writes || 0 < h.shutdowns

/-- `uv_is_closing`. -/
def uv_is_closing (h : UvTcp) : Bool := h.state ≠ .inUse

/-- `uv_close`. -/
def uv_close (h : UvTcp) : UvTcp :=
  { h with state := .closing, reading := false, closes := h.closes + 1 }

end UvTcp

/-- `UV_EOF`. -/
def UV_EOF : ℤ := -4095

/-! ### Connections -/

/-- `uv::TcpConnection`, but for its handle, and with close callbacks in `κ`. The other two
callbacks are its owner's, and all that is kept of them is whether they are set. -/
structure TcpConnection (κ : Type) where
  /-- The address of the peer. -/
  name_ : Bytes
  /-- Whether the peer is connected. -/
  connected_ : Bool
  /-- Whether there is a callback for received bytes. -/
  onMessageCallback_ : Bool
  /-- Whether there is a callback for the end of the stream and for errors. -/
  onConnectCloseCallback_ : Bool
  /-- The callback for when the handle is closed. -/
  closeCompleteCallback_ : Option κ
  deriving DecidableEq

/-- What a read comes to. -/
inductive Received where
  /-- Bytes, for the owner. -/
  | message
  /-- An error: `onSocketClose` follows. -/
  | socketClose
  /-- The end of the stream: `uv_shutdown` follows. -/
  | shutdown
  /-- Nothing. -/
  | nothing
  deriving DecidableEq

/-- A close that has been completed: the close callback of a connection has run. -/
structure Release where
  /-- The connection. -/
  id : ℕ
  /-- How far its handle had been closed by then. -/
  state : HandleState
  deriving DecidableEq

namespace TcpConnection

variable {κ : Type}

/-- A new connection, without callbacks. -/
def new (name : Bytes) : TcpConnection κ := ⟨name, true, false, false, none⟩

/-- `setMessageCallback`. -/
def setMessageCallback (c : TcpConnection κ) : TcpConnection κ := { c with onMessageCallback_ := true }

/-- `setConnectCloseCallback`. -/
def setConnectCloseCallback (c : TcpConnection κ) : TcpConnection κ :=
  { c with onConnectCloseCallback_ := true }

/-- `setConnectStatus`. -/
def setConnectStatus (c : TcpConnection κ) (status : Bool) : TcpConnection κ := { c with connected_ := status }

/-- `onSocketClose`: whether the owner's callback is called. -/
def onSocketClose (c : TcpConnection κ) : Bool := c.onConnectCloseCallback_

/-- `CloseComplete`: the callback that is called. -/
def CloseComplete (c : TcpConnection κ) : Option κ := c.closeCompleteCallback_

/-- `close`: the connection and its handle, and the callback that is called at once. -/
def close (c : TcpConnection κ) (h : UvTcp) (callback : Option κ) : TcpConnection κ × UvTcp × Option κ :=
  let c := { c with onMessageCallback_ := false, onConnectCloseCallback_ := false,
                    closeCompleteCallback_ := callback }
  let h := if h.uv_is_active then h.uv_read_stop else h
  if h.uv_is_closing = false then (c, h.uv_close, none) else (c, h, c.CloseComplete)

/-- `write`, when `uv_write` returns `rst`: the handle, and the status for the callback if that
is called at once. -/
def write (c : TcpConnection κ) (h : UvTcp) (rst : ℤ) : UvTcp × Option ℤ :=
  if c.connected_ then
    if rst = 0 then ({ h with writes := h.writes + 1 }, none) else (h, some rst)
  else (h, some (-1))

/-- `onMesageReceive`. -/
def onMesageReceive (c : TcpConnection κ) (nread : ℤ) : TcpConnection κ × Received :=
  if 0 < nread then (c, if c.onMessageCallback_ then .message else .nothing)
  else if nread < 0 then
    (c.setConnectStatus false, if nread ≠ UV_EOF then .socketClose else .shutdown)
  else (c, .nothing)

/-! ### Close callbacks -/

/-- What happens to a connection that is being closed. -/
inductive CloseEvent (κ : Type) where
  /-- `close` is called. -/
  | close (callback : Option κ)
  /-- libuv has closed the handle. -/
  | completed

/-- A connection, its handle, and the close callbacks called so far. -/
structure Closing (κ : Type) where
  /-- The connection. -/
  conn : TcpConnection κ
  /-- The handle. -/
  handle : UvTcp
  /-- The callbacks called, in order. -/
  called : List κ

/-- A step: libuv closes a handle after `uv_close`, and once. -/
inductive CloseStep : Closing κ → CloseEvent κ → Closing κ → Prop where
  /-- `close` is called. -/
  | close {c c' : TcpConnection κ} {h h' : UvTcp} {called : List κ} {callback now : Option κ} :
      c.close h callback = (c', h', now) →
      CloseStep ⟨c, h, called⟩ (.close callback) ⟨c', h', called ++ now.toList⟩
  /-- libuv has closed the handle. -/
  | completed {c : TcpConnection κ} {h : UvTcp} {called : List κ} : h.state = .closing →
      CloseStep ⟨c, h, called⟩ .completed
        ⟨c, { h with state := .closed }, called ++ c.CloseComplete.toList⟩

/-- The callbacks passed to `close`, where there are any. -/
def passed : List (CloseEvent κ) → List κ
  | [] => []
  | .close callback :: events => callback.toList ++ passed events
  | .completed :: events => passed events

/-- What was passed to `close` before libuv had closed the handle. -/
def passedBefore : List (CloseEvent κ) → List (Option κ)
  | [] => []
  | .close callback :: events => callback :: passedBefore events
  | .completed :: _ => []

/-- Before libuv has closed the handle, `close` is called once; or there is no callback the first
time and none the last time. -/
def ClosedInOrder (events : List (CloseEvent κ)) : Prop :=
  (passedBefore events).length = 1 ∨
    (passedBefore events).head? = some none ∧ (passedBefore events).getLast? = some none

@[simp] theorem passed_map_close (callbacks : List (Option κ)) :
    passed (callbacks.map .close) = callbacks.reduceOption := by
  induction callbacks with
  | nil => rfl
  | cons callback callbacks ih =>
    rw [List.map_cons, passed, ih]
    cases callback with
    | none => exact (List.reduceOption_cons_of_none _).symm
    | some k => exact (List.reduceOption_cons_of_some k _).symm

@[simp] theorem passed_append (events events' : List (CloseEvent κ)) :
    passed (events ++ events') = passed events ++ passed events' := by
  induction events with
  | nil => rfl
  | cons e events ih =>
    cases e with
    | close callback => simp [passed, ih]
    | completed => simp [passed, ih]

@[simp] theorem passedBefore_completed (before : List (Option κ)) (events : List (CloseEvent κ)) :
    passedBefore (before.map .close ++ .completed :: events) = before := by
  induction before with
  | nil => rfl
  | cons callback before ih => simpa [passedBefore] using ih

/-- A read changes no more than whether the peer is connected. -/
theorem onMesageReceive_fst (c : TcpConnection κ) (nread : ℤ) :
    ∃ status, (c.onMesageReceive nread).1 = c.setConnectStatus status := by
  rw [onMesageReceive]
  split
  · exact ⟨c.connected_, rfl⟩
  · split
    · exact ⟨false, rfl⟩
    · exact ⟨c.connected_, rfl⟩

/-- When the owner is told that the connection has ended or failed. -/
theorem onMesageReceive_socketClose {c : TcpConnection κ} {nread : ℤ}
    (h : (c.onMesageReceive nread).2 = .socketClose) : nread < 0 ∧ nread ≠ UV_EOF := by
  rw [onMesageReceive] at h
  split at h
  · dsimp only at h
    split at h <;> cases h
  · split at h
    · next hneg =>
      dsimp only at h
      split at h
      · next heof => exact ⟨hneg, heof⟩
      · cases h
    · cases h

/-- A write changes no more than how many writes there are. -/
theorem write_fst (c : TcpConnection κ) (h : UvTcp) (rst : ℤ) : (c.write h rst).1.state = h.state := by
  rw [write]
  split
  · split <;> rfl
  · rfl

/-- What `close` does: it takes the owner's callbacks away, keeps the new one, and calls it at once
unless the handle is in use. -/
theorem close_cases (c : TcpConnection κ) (h : UvTcp) (callback : Option κ) : ∃ c' h' now,
    c.close h callback = (c', h', now) ∧ c'.name_ = c.name_ ∧ c'.onConnectCloseCallback_ = false ∧
      c'.closeCompleteCallback_ = callback ∧
      (h.state = .inUse ∧ h'.state = .closing ∧ now = none ∨
        h.state ≠ .inUse ∧ h'.state = h.state ∧ now = callback) := by
  have hstop : (if h.uv_is_active then h.uv_read_stop else h).state = h.state := by
    split <;> rfl
  refine ⟨{ c with onMessageCallback_ := false, onConnectCloseCallback_ := false,
                   closeCompleteCallback_ := callback }, ?_⟩
  by_cases hopen : h.state = .inUse
  · refine ⟨(if h.uv_is_active then h.uv_read_stop else h).uv_close, none, ?_, rfl, rfl, rfl,
      .inl ⟨hopen, rfl, rfl⟩⟩
    rw [close, if_pos (by simp [UvTcp.uv_is_closing, hstop, hopen])]
  · refine ⟨if h.uv_is_active then h.uv_read_stop else h, callback, ?_, rfl, rfl, rfl,
      .inr ⟨hopen, hstop, rfl⟩⟩
    rw [close, if_neg (by simp [UvTcp.uv_is_closing, hstop, hopen])]
    rfl

/-- `close` calls `uv_close` for a handle in use. -/
theorem close_closes (c : TcpConnection κ) {h : UvTcp} (callback : Option κ) (hopen : h.state = .inUse) :
    (c.close h callback).2.1.closes = h.closes + 1 := by
  have hstop : (if h.uv_is_active then h.uv_read_stop else h).state = h.state := by
    split <;> rfl
  rw [close, if_pos (by simp [UvTcp.uv_is_closing, hstop, hopen])]
  dsimp only [UvTcp.uv_close]
  split <;> rfl

/-- How far a connection has been closed, from what has happened to it. -/
inductive Progress : List (CloseEvent κ) → Closing κ → Prop where
  /-- Nothing has happened. -/
  | fresh {c : TcpConnection κ} {h : UvTcp} : h.state = .inUse → Progress [] ⟨c, h, []⟩
  /-- Every call but the first has called its callback, and the last callback is kept. -/
  | pending {c : TcpConnection κ} {h : UvTcp} (first : Option κ) (others : List (Option κ)) :
      h.state = .closing → c.closeCompleteCallback_ = others.getLastD first →
      Progress ((first :: others).map .close) ⟨c, h, others.reduceOption⟩
  /-- The callback that was kept has been called, and the later calls have called theirs. -/
  | done {c : TcpConnection κ} {h : UvTcp} (first : Option κ) (others later : List (Option κ)) :
      h.state = .closed →
      Progress ((first :: others).map .close ++ .completed :: later.map .close)
        ⟨c, h, others.reduceOption ++ (others.getLastD first).toList ++ later.reduceOption⟩

/-- **A step**, whatever it is. -/
theorem Progress.step {events : List (CloseEvent κ)} {s s' : Closing κ} {e : CloseEvent κ}
    (h : Progress events s) (hstep : CloseStep s e s') : Progress (events ++ [e]) s' := by
  cases hstep with
  | @close c c' handle handle' called callback now hclose =>
    obtain ⟨_, _, _, heq, -, -, hkept, hcases⟩ := close_cases c handle callback
    obtain ⟨rfl, rfl, rfl⟩ := by simpa [heq] using hclose
    obtain ⟨hopen, hstate, hnow⟩ | ⟨hopen, hstate, hnow⟩ := hcases
    · rw [hnow]
      cases h with
      | fresh _ => exact .pending callback [] hstate hkept
      | pending _ _ hclosing _ => simp [hopen] at hclosing
      | done _ _ _ hclosed => simp [hopen] at hclosed
    · rw [hnow]
      cases h with
      | fresh hin => exact absurd hin hopen
      | pending first others hclosing _ =>
        have hlist : (first :: others).map CloseEvent.close ++ [.close callback] =
            (first :: (others ++ [callback])).map .close := by simp
        rw [hlist, ← List.reduceOption_singleton, ← List.reduceOption_append]
        exact .pending first (others ++ [callback]) (hstate.trans hclosing)
          (hkept.trans List.getLastD_concat.symm)
      | done first others later hclosed =>
        have hlist : (first :: others).map CloseEvent.close ++ .completed :: later.map .close ++
            [.close callback] =
              (first :: others).map .close ++ .completed :: (later ++ [callback]).map .close := by simp
        rw [hlist, List.append_assoc, ← List.reduceOption_singleton callback, ← List.reduceOption_append]
        exact .done first others (later ++ [callback]) (hstate.trans hclosed)
  | @completed c handle called hclosing =>
    cases h with
    | fresh hin => simp [hin] at hclosing
    | pending first others _ hkept =>
      have hnext := Progress.done (c := c) (h := { handle with state := .closed }) first others [] rfl
      rw [CloseComplete, hkept]
      simpa using hnext
    | done _ _ _ hclosed => simp [hclosed] at hclosing

/-- When `close` is called several times before libuv has closed the handle, the first callback is
not called, and the last one is called twice. -/
theorem count_called_iff [DecidableEq κ] {first : Option κ} {others : List (Option κ)} {later : List κ}
    (hne : others ≠ []) (hdistinct : (first.toList ++ others.reduceOption ++ later).Nodup) :
    (∀ k ∈ first.toList ++ others.reduceOption ++ later,
      (others.reduceOption ++ (others.getLastD first).toList ++ later).count k = 1) ↔
        first = none ∧ others.getLastD first = none := by
  have hlast : others.getLastD first ∈ others := by
    rw [List.getLastD_eq_getLast?, List.getLast?_eq_some_getLast hne]
    exact List.getLast_mem hne
  constructor
  · intro h
    constructor
    · cases hfirst : first with
      | none => rfl
      | some k =>
        subst hfirst
        have hcount := h k (by simp)
        have hk : k ∉ others.reduceOption ++ later := by
          rw [List.append_assoc] at hdistinct
          exact (List.nodup_cons.mp hdistinct).1
        have hk' : k ∉ (others.getLastD (some k)).toList := by
          intro hmem
          rw [Option.mem_toList] at hmem
          rw [hmem, ← List.reduceOption_mem_iff] at hlast
          exact hk (List.mem_append_left _ hlast)
        have hnot : k ∉ others.reduceOption ++ (others.getLastD (some k)).toList ++ later := by
          simp only [List.mem_append, not_or] at hk ⊢
          exact ⟨⟨hk.1, hk'⟩, hk.2⟩
        rw [List.count_eq_zero_of_not_mem hnot] at hcount
        cases hcount
    · cases hkept : others.getLastD first with
      | none => rfl
      | some k =>
        have hmem : k ∈ others.reduceOption := List.reduceOption_mem_iff.mpr (hkept ▸ hlast)
        have hcount := h k (List.mem_append_left _ (List.mem_append_right _ hmem))
        have hpos : 1 ≤ others.reduceOption.count k := List.one_le_count_iff.mpr hmem
        rw [hkept, List.count_append, List.count_append] at hcount
        simp only [Option.toList_some, List.count_singleton_self] at hcount
        omega
  · rintro ⟨rfl, hkept⟩ k hk
    rw [hkept, Option.toList_none, List.append_nil]
    exact List.count_eq_one_of_mem hdistinct hk

/-- **Every callback is called once** in the runs in which a connection is closed in order, and in
no others. -/
theorem calledOnce_iff [DecidableEq κ] {c : TcpConnection κ} {h : UvTcp} {events : List (CloseEvent κ)}
    {s : Closing κ} (hopen : h.state = .inUse) (hrun : Run CloseStep ⟨c, h, []⟩ events s)
    (hclosed : s.handle.state = .closed) (hdistinct : (passed events).Nodup) :
    (∀ callback ∈ passed events, s.called.count callback = 1) ↔ ClosedInOrder events := by
  have hprogress : Progress events s :=
    hrun.rec_events (.fresh hopen) fun _ _ _ _ hprogress hstep => hprogress.step hstep
  cases hprogress with
  | fresh hin => simp [hin] at hclosed
  | pending _ _ hclosing _ => simp [hclosing] at hclosed
  | @done c h first others later _ =>
    have hpassed : passed ((first :: others).map .close ++ .completed :: later.map .close) =
        first.toList ++ others.reduceOption ++ later.reduceOption := by
      simp [passed]
    have hbefore : passedBefore ((first :: others).map .close ++ .completed :: later.map .close) =
        first :: others := passedBefore_completed _ _
    rw [hpassed] at hdistinct ⊢
    rw [ClosedInOrder, hbefore]
    cases others with
    | nil =>
      simp only [List.length_singleton, true_or, iff_true]
      intro k hk
      have hk' : k ∈ first.toList ++ later.reduceOption := by simpa using hk
      have hdistinct' : (first.toList ++ later.reduceOption).Nodup := by simpa using hdistinct
      simpa using List.count_eq_one_of_mem hdistinct' hk'
    | cons second others =>
      rw [count_called_iff (by simp) hdistinct]
      simp [List.getLast?_cons]

/-- A new connection, and its handle. -/
def sample : Closing ℕ := ⟨new (bytes "127.0.0.1:10002"), UvTcp.init.uv_read_start, []⟩

theorem calledOnce_iff_sample :
    (∀ k ∈ passed [.close (some 0), .completed, .close none, .close (some 1)], [0, 1].count k = 1) ↔
      ClosedInOrder [.close (some 0), .completed, .close none, .close (some 1)] := by
  have hrun : Run CloseStep sample [] sample := .nil sample
  have hrun := hrun.snoc (a := .close (some 0)) (.close rfl)
  have hrun := hrun.snoc (.completed rfl)
  have hrun := hrun.snoc (a := .close none) (.close rfl)
  have hrun := hrun.snoc (a := .close (some 1)) (.close rfl)
  exact calledOnce_iff rfl hrun rfl (by decide)

/-- The end of the stream and a call to `close`, before libuv is done: the first callback is not
called, and the second one twice. -/
theorem not_calledOnce_twice : ∃ s,
    Run CloseStep sample [.close (some 0), .close (some 1), .completed] s ∧ s.handle.state = .closed ∧
      s.called = [1, 1] ∧
      ¬ ∀ k ∈ passed [.close (some 0), .close (some 1), .completed], s.called.count k = 1 := by
  have hrun : Run CloseStep sample [] sample := .nil sample
  have hrun := hrun.snoc (a := .close (some 0)) (.close rfl)
  have hrun := hrun.snoc (a := .close (some 1)) (.close rfl)
  exact ⟨_, hrun.snoc (.completed rfl), rfl, rfl, by decide⟩

end TcpConnection

end UvCpp
