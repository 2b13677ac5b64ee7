import UvCpp.Systems.Duplex
import UvCpp.Systems.Framing
import Mathlib.Data.List.Rotate

/-!
# Frames that go round

A party that relays takes the whole frames out of what it has received, writes them back and keeps
the part of a frame that is left (`Relay`). Two such parties pass what is under way between them
round and round. However it is cut on its way, no frame is lost, doubled or overtaken: in the order
in which they go round, the frames are a rotation of those of the beginning (`Circulates.toRight`,
`Circulates.toLeft`), and as long as there is one, something can arrive (`Circulates.underWay`).
-/

namespace UvCpp.Systems

open UvCpp.Cpp

variable {σ τ ι φ α : Type}

/-- A party that relays frames, as long as it is to hold no more than so much. -/
def Relay (encode : φ → List α) (Good : φ → Prop) (limit : ℕ) (Inv : σ → Prop) (held : σ → List α)
    (receive : σ → List α → Exec (σ × List α)) : Prop :=
  ∀ s chunk qs rs r, (∀ p ∈ qs ++ rs, Good p) → Inv s → (held s ++ chunk).length ≤ limit →
    held s ++ chunk = (qs.map encode).flatten ++ r → Partial encode rs r →
      ∃ t, receive s chunk = .ok (t, (qs.map encode).flatten) ∧ Inv t ∧ held t = r

/-- Frames on their way to a party that holds a part of the first one. -/
structure Approaching (encode : φ → List α) (held rest : List α) (qs : List φ) : Prop where
  /-- What the party holds, and what is under way to it, are the frames. -/
  text : held ++ rest = (qs.map encode).flatten
  /-- It holds no whole frame. -/
  short : ∀ p ∈ qs.head?, held.length < (encode p).length

variable {encode : φ → List α} {Good : φ → Prop} {limit : ℕ} {qs ps : List φ} {h r : List α}

/-- Frames that are written are on their way behind the others. -/
theorem Approaching.append (happ : Approaching encode h r qs) (hne : ∀ p ∈ ps, encode p ≠ []) :
    Approaching encode h (r ++ (ps.map encode).flatten) (qs ++ ps) := by
  refine ⟨?_, ?_⟩
  · rw [← List.append_assoc, happ.text, List.map_append, List.flatten_append]
  · intro p hp
    cases qs with
    | nil =>
      obtain ⟨rfl, -⟩ := List.append_eq_nil_iff.mp happ.text
      exact List.length_pos_of_ne_nil (hne p (List.mem_of_mem_head? hp))
    | cons q qs => exact happ.short p hp

/-- A frame that is on its way has not arrived whole. -/
theorem Approaching.rest_ne_nil (happ : Approaching encode h r qs) (hqs : qs ≠ []) : r ≠ [] := by
  obtain ⟨q, qs, rfl⟩ := List.exists_cons_of_ne_nil hqs
  rintro rfl
  have hshort := happ.short q rfl
  have htext := congrArg List.length happ.text
  rw [List.append_nil, List.map_cons, List.flatten_cons, List.length_append] at htext
  omega

/-- **A chunk arrives**: some frames are written back, and the others are on their way still. -/
theorem Relay.receive {Inv : σ → Prop} {held : σ → List α} {receive : σ → List α → Exec (σ × List α)}
    (hrelay : Relay encode Good limit Inv held receive) {s : σ} (hs : Inv s)
    (happ : Approaching encode (held s) r qs) (hgood : ∀ p ∈ qs, Good p) (hlimit : (held s ++ r).length ≤ limit)
    (n : ℕ) : ∃ t before after, qs = before ++ after ∧
      receive s (r.take n) = .ok (t, (before.map encode).flatten) ∧ Inv t ∧
      Approaching encode (held t) (r.drop n) after := by
  have htext := happ.text
  rw [← List.take_append_drop n r, ← List.append_assoc] at htext
  obtain ⟨before, after, r', rfl, hbefore, hafter, hshort⟩ := exists_split htext
  have hle : (held s ++ r.take n).length ≤ limit := by
    rw [List.length_append] at hlimit ⊢
    exact (Nat.add_le_add_left (List.length_take_le' n r) _).trans hlimit
  obtain ⟨t, hreceive, ht, rfl⟩ := hrelay s _ before after r' hgood hs hle hbefore
    (partial_of_split hafter hshort)
  exact ⟨t, before, after, rfl, hreceive, ht, hafter, hshort⟩

/-- Two parties and what goes round between them: first the frames on their way to the left, then
those on their way to the right. -/
structure Circulates (encode : φ → List α) (InvLeft : σ → Prop) (heldLeft : σ → List α) (InvRight : τ → Prop)
    (heldRight : τ → List α) (ps : List φ) (x : Duplex σ τ α) : Prop where
  /-- The party on the left is in order. -/
  left : InvLeft x.left
  /-- So is the one on the right. -/
  right : InvRight x.right
  /-- Together the frames are those of the beginning. -/
  frames : ∃ rs qs, Approaching encode (heldLeft x.left) x.toLeft rs ∧
    Approaching encode (heldRight x.right) x.toRight qs ∧ (rs ++ qs) ~r ps

variable {InvLeft : σ → Prop} {heldLeft : σ → List α} {InvRight : τ → Prop} {heldRight : τ → List α}
  {p : Parties σ τ ι α} {x : Duplex σ τ α}

theorem length_le_of_isRotated (encode : φ → List α) {rs : List φ} (hrot : (rs ++ qs) ~r ps) :
    (rs.map encode).flatten.length + (qs.map encode).flatten.length = (ps.map encode).flatten.length := by
  rw [← List.length_append, ← List.flatten_append, ← List.map_append]
  exact (hrot.perm.map encode).flatten.length_eq

/-- **Something arrives on the right.** -/
theorem Circulates.toRight (hx : Circulates encode InvLeft heldLeft InvRight heldRight ps x)
    (hrelay : Relay encode Good limit InvRight heldRight p.receiveRight) (hgood : ∀ p ∈ ps, Good p)
    (hne : ∀ p, Good p → encode p ≠ []) (hlimit : (ps.map encode).flatten.length ≤ limit) (n : ℕ) :
    ∃ y, x.step p (.toRight n) = .ok y ∧ Circulates encode InvLeft heldLeft InvRight heldRight ps y ∧
      y.left = x.left := by
  obtain ⟨hleft, hright, rs, qs, hrs, hqs, hrot⟩ := hx
  have hlen := length_le_of_isRotated encode hrot
  have hmem : ∀ p ∈ qs, Good p := fun p hp => hgood p (hrot.mem_iff.mp (List.mem_append_right _ hp))
  obtain ⟨t, before, after, rfl, hreceive, ht, hafter⟩ := hrelay.receive hright hqs hmem
    (by rw [hqs.text]; omega) n
  refine ⟨_, Duplex.step_toRight hreceive, ⟨hleft, ht, rs ++ before, after, ?_, hafter, ?_⟩, rfl⟩
  · exact hrs.append fun p hp => hne p (hmem p (List.mem_append_left _ hp))
  · rwa [List.append_assoc]

/-- **Something arrives on the left.** -/
theorem Circulates.toLeft (hx : Circulates encode InvLeft heldLeft InvRight heldRight ps x)
    (hrelay : Relay encode Good limit InvLeft heldLeft p.receiveLeft) (hgood : ∀ p ∈ ps, Good p)
    (hne : ∀ p, Good p → encode p ≠ []) (hlimit : (ps.map encode).flatten.length ≤ limit) (n : ℕ) :
    ∃ y, x.step p (.toLeft n) = .ok y ∧ Circulates encode InvLeft heldLeft InvRight heldRight ps y ∧
      y.right = x.right := by
  obtain ⟨hleft, hright, rs, qs, hrs, hqs, hrot⟩ := hx
  have hlen := length_le_of_isRotated encode hrot
  have hmem : ∀ p ∈ rs, Good p := fun p hp => hgood p (hrot.mem_iff.mp (List.mem_append_left _ hp))
  obtain ⟨t, before, after, rfl, hreceive, ht, hafter⟩ := hrelay.receive hleft hrs hmem
    (by rw [hrs.text]; omega) n
  refine ⟨_, Duplex.step_toLeft hreceive, ⟨ht, hright, after, qs ++ before, hafter, ?_, ?_⟩, rfl⟩
  · exact hqs.append fun p hp => hne p (hmem p (List.mem_append_left _ hp))
  · refine .trans ?_ hrot
    rw [List.append_assoc before, ← List.append_assoc after]
    exact List.isRotated_append

/-- **Nothing gets stuck**: a frame that goes round is not all held. -/
theorem Circulates.underWay (hx : Circulates encode InvLeft heldLeft InvRight heldRight ps x)
    (hps : ps ≠ []) : x.toRight ≠ [] ∨ x.toLeft ≠ [] := by
  obtain ⟨-, -, rs, qs, hrs, hqs, hrot⟩ := hx
  have hne : rs ++ qs ≠ [] := by
    intro hnil
    rw [hnil, List.isRotated_nil_iff'] at hrot
    exact hps hrot.symm
  by_cases hnil : rs = []
  · rw [hnil, List.nil_append] at hne
    exact .inl (hqs.rest_ne_nil hne)
  · exact .inr (hrs.rest_ne_nil hnil)

end UvCpp.Systems
