import UvCpp.Systems.Run

/-!
# Frames in a stream

A stream carries frames one after another and arrives in chunks cut anywhere. After
some chunks the receiver has seen a number of whole frames and a part of the next
one (`exists_split`). So it is enough that the receiver, in one step, takes out the
whole frames of what it holds and keeps the rest: then it delivers all frames in
order, however the stream is cut (`runAll_delivers`).
-/

namespace UvCpp.Systems

open UvCpp.Cpp

variable {α φ σ : Type} {encode : φ → List α}

/-- The beginning of a frame, or nothing. -/
def Partial (encode : φ → List α) (ps : List φ) (r : List α) : Prop :=
  r = [] ∨ ∃ p ∈ ps, r <+: encode p ∧ r.length < (encode p).length

/-- **Cutting a stream of frames.** Before the cut are whole frames and a part of one. -/
theorem exists_split {ps : List φ} {x y : List α} (h : x ++ y = (ps.map encode).flatten) :
    ∃ qs rs r, ps = qs ++ rs ∧ x = (qs.map encode).flatten ++ r ∧ r ++ y = (rs.map encode).flatten ∧
      ∀ p ∈ rs.head?, r.length < (encode p).length := by
  induction ps generalizing x with
  | nil =>
    obtain ⟨rfl, rfl⟩ := List.append_eq_nil_iff.mp h
    exact ⟨[], [], [], rfl, rfl, rfl, by simp⟩
  | cons p ps ih =>
    by_cases hlt : x.length < (encode p).length
    · exact ⟨[], p :: ps, x, rfl, rfl, h, by simpa using hlt⟩
    · -- the first frame lies before the cut
      rw [List.map_cons, List.flatten_cons] at h
      obtain ⟨x', rfl⟩ : encode p <+: x := by
        refine List.prefix_of_prefix_length_le ?_ (List.prefix_append x y) (by omega)
        rw [h]
        exact List.prefix_append _ _
      rw [List.append_assoc, List.append_cancel_left_eq] at h
      obtain ⟨qs, rs, r, rfl, rfl, h2, h3⟩ := ih h
      exact ⟨p :: qs, rs, r, rfl, by simp, h2, h3⟩

/-- What is left over at a cut is the beginning of a frame. -/
theorem partial_of_split {ps : List φ} {r y : List α} (h : r ++ y = (ps.map encode).flatten)
    (hlt : ∀ p ∈ ps.head?, r.length < (encode p).length) : Partial encode ps r := by
  cases ps with
  | nil => exact .inl (List.append_eq_nil_iff.mp h).1
  | cons p ps =>
    have hlt := hlt p rfl
    refine .inr ⟨p, List.mem_cons_self, ?_, hlt⟩
    refine List.prefix_of_prefix_length_le (List.prefix_append r y) ?_ (Nat.le_of_lt hlt)
    rw [h]
    exact List.prefix_append _ _

/-- **A receiver delivers the frames of a stream.** It may refuse a chunk; as long as it
does not (`Ok`), and as long as a step takes out the whole frames it holds and keeps the
rest, a run on any chunks of the stream delivers all frames, in order, and ends holding
nothing. -/
theorem runAll_delivers {receive : σ → List α → Exec (σ × List φ)} {held : σ → List α} {Inv : σ → Prop}
    {Ok : σ → List α → Prop} {Good : φ → Prop}
    (hstep : ∀ s chunk qs rs r, (∀ p ∈ qs ++ rs, Good p) → Inv s → Ok s chunk →
      held s ++ chunk = (qs.map encode).flatten ++ r → Partial encode rs r →
        ∃ t, receive s chunk = .ok (t, qs) ∧ Inv t ∧ held t = r)
    {s : σ} {ps : List φ} {chunks : List (List α)} (hps : ∀ p ∈ ps, Good p) (hs : Inv s)
    (hok : AllSteps receive Ok s chunks) (h : held s ++ chunks.flatten = (ps.map encode).flatten)
    (hlt : ∀ p ∈ ps.head?, (held s).length < (encode p).length) :
    ∃ t outs, runAll receive s chunks = .ok (t, outs) ∧ Inv t ∧ outs.flatten = ps ∧ held t = [] := by
  induction chunks generalizing s ps with
  | nil =>
    rw [List.flatten_nil, List.append_nil] at h
    cases ps with
    | nil => exact ⟨s, [], rfl, hs, rfl, h⟩
    | cons p ps =>
      have hlt := hlt p rfl
      rw [h, List.map_cons, List.flatten_cons, List.length_append] at hlt
      omega
  | cons chunk chunks ih =>
    rw [List.flatten_cons, ← List.append_assoc] at h
    obtain ⟨qs, rs, r, rfl, hx, hr, hlt'⟩ := exists_split h
    obtain ⟨t, hrec, ht, hheld⟩ := hstep s chunk qs rs r hps hs hok.head hx (partial_of_split hr hlt')
    have hrs : ∀ p ∈ rs, Good p := fun p hp => hps p (List.mem_append_right qs hp)
    obtain ⟨u, outs, hrun, hu, rfl, hnil⟩ := ih hrs ht (hok.tail hrec) (hheld ▸ hr) (hheld ▸ hlt')
    exact ⟨u, qs :: outs, runAll_cons_of hrec hrun, hu, rfl, hnil⟩

end UvCpp.Systems
