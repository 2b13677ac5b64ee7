import Mathlib.Data.Finset.Card
import Mathlib.Logic.Relation

/-!
# Walks

A loop whose rounds depend on nothing but the place they start from takes a walk: each round
ends it or leads to the next place. Among finitely many places, a walk that goes on long enough
has come back to a place, and can go round for ever (`circles_of_walks`); a walk that comes back
to no place ends (`walks_iff_circles`). What no step makes less stays the same all around a circle
(`circles_iff_level`).
-/

namespace UvCpp.Systems

open Relation

variable {α : Type} {r : α → α → Prop}

/-- So many steps can be taken. -/
def Walks (r : α → α → Prop) : ℕ → α → Prop
  | 0, _ => True
  | n + 1, a => ∃ b, r a b ∧ Walks r n b

/-- A place that is reached leads back to itself. -/
def Circles (r : α → α → Prop) (a : α) : Prop := ∃ b, ReflTransGen r a b ∧ TransGen r b b

/-- A longer walk begins with a shorter one. -/
theorem Walks.of_le {m n : ℕ} {a : α} (h : Walks r n a) (hle : m ≤ n) : Walks r m a := by
  induction m generalizing n a with
  | zero => trivial
  | succ m ih =>
    obtain ⟨n, rfl⟩ := Nat.exists_eq_add_of_le' hle
    obtain ⟨b, hab, hb⟩ := h
    exact ⟨b, hab, ih hb (Nat.le_add_left m n)⟩

/-- A circle that is ahead after a step is ahead before it. -/
theorem Circles.of_step {a b : α} (hab : r a b) (h : Circles r b) : Circles r a := by
  obtain ⟨c, hbc, hcc⟩ := h
  exact ⟨c, hbc.head hab, hcc⟩

/-- With a circle ahead there is a step to take, and the circle is ahead still. -/
theorem Circles.step {a : α} (h : Circles r a) : ∃ b, r a b ∧ Circles r b := by
  obtain ⟨c, hac, hcc⟩ := h
  obtain rfl | ⟨b, hab, hbc⟩ := hac.cases_head
  · obtain ⟨b, hab, hba⟩ := TransGen.head'_iff.mp hcc
    exact ⟨b, hab, a, hba, hcc⟩
  · exact ⟨b, hab, c, hbc, hcc⟩

/-- With a circle ahead, a walk never ends. -/
theorem Circles.walks {a : α} (h : Circles r a) (n : ℕ) : Walks r n a := by
  induction n generalizing a with
  | zero => trivial
  | succ n ih =>
    obtain ⟨b, hab, hb⟩ := h.step
    exact ⟨b, hab, ih hb⟩

/-- **A walk with more steps than there are places has a circle ahead.** -/
theorem circles_of_walks {a : α} (S : Finset α) (hS : ∀ b, ReflTransGen r a b → b ∈ S)
    (h : Walks r S.card a) : Circles r a := by
  classical
  -- On the number of places: a place that is left and not on a circle is not come back to.
  induction hn : S.card generalizing S a with
  | zero =>
    have ha : a ∈ S := hS a .refl
    rw [Finset.card_eq_zero.mp hn] at ha
    cases ha
  | succ n ih =>
    rw [hn] at h
    obtain ⟨b, hab, hb⟩ := h
    by_cases hback : ReflTransGen r b a
    · exact ⟨a, .refl, TransGen.head'_iff.mpr ⟨b, hab, hback⟩⟩
    · have hcard : (S.erase a).card = n := by
        rw [Finset.card_erase_of_mem (hS a .refl), hn]
        rfl
      have herase : ∀ c, ReflTransGen r b c → c ∈ S.erase a := by
        intro c hc
        refine Finset.mem_erase.mpr ⟨?_, hS c (hc.head hab)⟩
        rintro rfl
        exact hback hc
      exact .of_step hab (ih (S.erase a) herase (by rwa [hcard]) hcard)

/-- **A walk ends unless it comes back to a place**, within as many steps as there are places. -/
theorem walks_iff_circles {a : α} (S : Finset α) (hS : ∀ b, ReflTransGen r a b → b ∈ S) {n : ℕ}
    (hn : S.card ≤ n) : Walks r n a ↔ Circles r a := by
  constructor
  · intro h
    exact circles_of_walks S hS (h.of_le hn)
  · intro h
    exact h.walks n

/-- Where each place has at most one way out, what leads to a place without one does not circle. -/
theorem not_circles_of_stuck (hunique : ∀ a b c, r a b → r a c → b = c) {a b : α} (h : ReflTransGen r a b)
    (hb : ∀ c, ¬ r b c) : ¬ Circles r a := by
  induction h using ReflTransGen.head_induction_on with
  | refl =>
    intro hcircles
    obtain ⟨c, hbc, -⟩ := hcircles.step
    exact hb c hbc
  | head hac _ ih =>
    intro hcircles
    obtain ⟨d, had, hd⟩ := hcircles.step
    exact ih (hunique _ _ _ had hac ▸ hd)

/-- Steps that do not lead down, and end where they began or below, stay on one level. -/
theorem transGen_level {f : α → ℕ} (h : ∀ a b, r a b → f a ≤ f b) {a b : α} (hab : TransGen r a b) :
    f a ≤ f b ∧ (f b ≤ f a → TransGen (fun c d => r c d ∧ f c = f d) a b) := by
  induction hab with
  | single hab =>
    have hle := h _ _ hab
    exact ⟨hle, fun hge => .single ⟨hab, le_antisymm hle hge⟩⟩
  | @tail b c _ hbc ih =>
    have hle := h _ _ hbc
    refine ⟨ih.1.trans hle, fun hge => ?_⟩
    exact (ih.2 (hle.trans hge)).tail ⟨hbc, le_antisymm hle (hge.trans ih.1)⟩

/-- **A circle stays on one level** when no step leads down. -/
theorem circles_iff_level {f : α → ℕ} (h : ∀ a b, r a b → f a ≤ f b) {a : α} : Circles r a ↔
    ∃ b, ReflTransGen r a b ∧ TransGen (fun c d => r c d ∧ f c = f d) b b := by
  constructor
  · rintro ⟨b, hab, hbb⟩
    exact ⟨b, hab, (transGen_level h hbb).2 le_rfl⟩
  · rintro ⟨b, hab, hbb⟩
    exact ⟨b, hab, hbb.lift id fun _ _ hcd => hcd.1⟩

/-- Where every step leads further there is no circle. -/
theorem not_circles_of_lt (f : α → ℕ) {a : α} (h : ∀ b c, ReflTransGen r a b → r b c → f b < f c) :
    ¬ Circles r a := by
  rintro ⟨b, hab, hbb⟩
  have hlt : ∀ c, TransGen r b c → f b < f c := by
    intro c hc
    induction hc with
    | single hbc => exact h _ _ hab hbc
    | tail hbc hcd ih => exact ih.trans (h _ _ (hab.trans hbc.to_reflTransGen) hcd)
  exact lt_irrefl _ (hlt b hbb)

end UvCpp.Systems
