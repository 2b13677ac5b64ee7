import UvCpp.Systems.Run

/-!
# Mailboxes

What a queue between threads is for: things are posted, and taken in the order they were posted,
each once. `Mailbox.posts_eq` says it of every run; a program that keeps its things in several
places is seen to do the same by a simulation (`Run.simulates`).
-/

namespace UvCpp.Systems

variable {φ : Type}

/-- What is waiting to be taken, the oldest first. -/
structure Mailbox (φ : Type) where
  /-- The things that wait. -/
  waiting : List φ

namespace Mailbox

/-- What happens to a mailbox. -/
inductive Event (φ : Type) where
  /-- Something is posted. -/
  | post (f : φ)
  /-- Something is taken. -/
  | take (f : φ)

/-- The oldest is taken first. -/
inductive Step : Mailbox φ → Event φ → Mailbox φ → Prop where
  /-- What is posted waits behind the others. -/
  | post (fs : List φ) (f : φ) : Step ⟨fs⟩ (.post f) ⟨fs ++ [f]⟩
  /-- What has waited longest is taken. -/
  | take (f : φ) (fs : List φ) : Step ⟨f :: fs⟩ (.take f) ⟨fs⟩

/-- What an event posts. -/
def Event.posted : Event φ → Option φ
  | .post f => some f
  | .take _ => none

/-- What an event takes. -/
def Event.taken : Event φ → Option φ
  | .post _ => none
  | .take f => some f

/-- What has been posted is what has been taken, and then what waits. -/
def Accounted (events : List (Event φ)) (m : Mailbox φ) : Prop :=
  events.filterMap Event.posted = events.filterMap Event.taken ++ m.waiting

/-- A step keeps the account. -/
theorem Accounted.step {events : List (Event φ)} {m m' : Mailbox φ} {e : Event φ} (h : Accounted events m)
    (hstep : Step m e m') : Accounted (events ++ [e]) m' := by
  unfold Accounted at h ⊢
  cases hstep with
  | post fs f => simp [Event.posted, Event.taken, h]
  | take f fs => simp [Event.posted, Event.taken, h]

/-- **First in, first out**: what has been posted is what has been taken, and then what waits. -/
theorem posts_eq {events : List (Event φ)} {m : Mailbox φ} (h : Run Step ⟨[]⟩ events m) :
    events.filterMap Event.posted = events.filterMap Event.taken ++ m.waiting :=
  have haccount : Accounted events m := h.rec_events rfl fun _ _ _ _ h hstep => h.step hstep
  haccount

end Mailbox

end UvCpp.Systems
