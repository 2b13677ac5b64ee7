import Mathlib.Data.List.Infix

/-!
# Entries and prefixes of their keys

A table is a list of entries, keys that are lists and their values, in the order in which they were
made. `below p` is what it says of the keys that begin with `p`: the rest of each key, in the same
order. Which of two kinds of keys came into a table first is `earlier`; below a prefix it is the
same question about longer keys (`earlier_below`). `begun` asks the same of all the keys that begin
with something.
-/

namespace UvCpp.Systems

variable {α ν : Type} [DecidableEq α]

/-- The entries whose keys begin with a prefix, without it. -/
def below (p : List α) (es : List (List α × ν)) : List (List α × ν) :=
  es.filterMap fun e => if p <+: e.1 then some (e.1.drop p.length, e.2) else none

/-- Whether the key `p` came into the table, and no key that begins with `q` came before it. -/
def earlier (p q : List α) : List (List α × ν) → Bool
  | [] => false
  | e :: es => e.1 = p || (¬ q <+: e.1 && earlier p q es)

/-- Whether a key that begins with `p` came into the table, and no key that begins with `q` came before it. -/
def begun (p q : List α) : List (List α × ν) → Bool
  | [] => false
  | e :: es => p <+: e.1 || (¬ q <+: e.1 && begun p q es)

variable {p q k : List α} {v : ν} {es es' : List (List α × ν)}

@[simp] theorem below_nil (p : List α) : below p ([] : List (List α × ν)) = [] := rfl

@[simp] theorem below_append (p : List α) (es es' : List (List α × ν)) :
    below p (es ++ es') = below p es ++ below p es' := List.filterMap_append

theorem below_cons_of_append (p k : List α) (v : ν) (es : List (List α × ν)) :
    below p ((p ++ k, v) :: es) = (k, v) :: below p es := by
  rw [below, List.filterMap_cons_some (b := (k, v)) (by simp)]
  rfl

theorem below_cons_of_not_isPrefix (h : ¬ p <+: k) (v : ν) (es : List (List α × ν)) :
    below p ((k, v) :: es) = below p es := by
  rw [below, List.filterMap_cons_none (by simp [h])]
  rfl

theorem mem_below_iff : (k, v) ∈ below p es ↔ (p ++ k, v) ∈ es := by
  rw [below, List.mem_filterMap]
  constructor
  · rintro ⟨⟨key, v'⟩, hmem, h⟩
    split at h
    · next hpre =>
      obtain ⟨t, rfl⟩ := hpre
      rw [Option.some.injEq, Prod.mk.injEq, List.drop_left] at h
      obtain ⟨rfl, rfl⟩ := h
      exact hmem
    · cases h
  · intro hmem
    exact ⟨(p ++ k, v), hmem, by simp⟩

theorem forall_mem_below_iff {P : List α → Prop} :
    (∀ e ∈ below p es, P e.1) ↔ ∀ e ∈ es, ∀ k, e.1 = p ++ k → P k := by
  constructor
  · rintro h ⟨_, v⟩ he k rfl
    exact h (k, v) (mem_below_iff.mpr he)
  · rintro h ⟨k, v⟩ he
    exact h (p ++ k, v) (mem_below_iff.mp he) k rfl

@[simp] theorem below_empty (es : List (List α × ν)) : below [] es = es := by
  induction es with
  | nil => rfl
  | cons e es ih =>
    have h := below_cons_of_append [] e.1 e.2 es
    rwa [ih] at h

theorem below_below (p q : List α) (es : List (List α × ν)) : below q (below p es) = below (p ++ q) es := by
  induction es with
  | nil => rfl
  | cons e es ih =>
    obtain ⟨k, v⟩ := e
    by_cases hp : p <+: k
    · obtain ⟨t, rfl⟩ := hp
      rw [below_cons_of_append]
      by_cases hq : q <+: t
      · obtain ⟨u, rfl⟩ := hq
        rw [below_cons_of_append, ← List.append_assoc, below_cons_of_append, ih]
      · rw [below_cons_of_not_isPrefix hq, below_cons_of_not_isPrefix, ih]
        rwa [List.prefix_append_right_inj]
    · rw [below_cons_of_not_isPrefix hp, below_cons_of_not_isPrefix, ih]
      exact fun h => hp ((List.prefix_append p q).trans h)

/-- Entries that do not begin with a prefix do not matter below it. -/
theorem below_filter {P : List α × ν → Bool} (h : ∀ e ∈ es, p <+: e.1 → P e = true) :
    below p (es.filter P) = below p es := by
  induction es with
  | nil => rfl
  | cons e es ih =>
    obtain ⟨k, v⟩ := e
    have ih := ih fun e he => h e (List.mem_cons_of_mem _ he)
    by_cases hp : p <+: k
    · have hP : P (k, v) = true := h _ List.mem_cons_self hp
      obtain ⟨t, rfl⟩ := hp
      rw [List.filter_cons_of_pos hP, below_cons_of_append, below_cons_of_append, ih]
    · rw [below_cons_of_not_isPrefix hp, ← ih]
      by_cases hP : P (k, v) = true
      · rw [List.filter_cons_of_pos hP, below_cons_of_not_isPrefix hp]
      · rw [List.filter_cons_of_neg hP]

/-! ### Which came first -/

/-- **Which came first**, without the recursion. -/
theorem earlier_iff : earlier p q es ↔ ∃ pre v post, es = pre ++ (p, v) :: post ∧
    ∀ e ∈ pre, ¬ q <+: e.1 := by
  induction es with
  | nil => simp [earlier]
  | cons e es ih =>
    obtain ⟨k, v⟩ := e
    simp only [earlier, Bool.or_eq_true, Bool.and_eq_true, decide_eq_true_eq, ih]
    constructor
    · rintro (rfl | ⟨hq, pre, v', post, rfl, hpre⟩)
      · exact ⟨[], v, es, rfl, by simp⟩
      · exact ⟨(k, v) :: pre, v', post, rfl, by simpa [hq] using hpre⟩
    · rintro ⟨pre, v', post, heq, hpre⟩
      cases pre with
      | nil =>
        cases heq
        exact .inl rfl
      | cons e pre =>
        obtain ⟨rfl, rfl⟩ := List.cons.inj heq
        exact .inr ⟨hpre _ List.mem_cons_self, pre, v', post, rfl, fun e he => hpre e (List.mem_cons_of_mem _ he)⟩

theorem mem_of_earlier (h : earlier p q es) : ∃ v, (p, v) ∈ es := by
  obtain ⟨pre, v, post, rfl, -⟩ := earlier_iff.mp h
  exact ⟨v, by simp⟩

/-- What came first below a prefix. -/
theorem earlier_below (r p q : List α) (es : List (List α × ν)) :
    earlier p q (below r es) = earlier (r ++ p) (r ++ q) es := by
  induction es with
  | nil => rfl
  | cons e es ih =>
    obtain ⟨k, v⟩ := e
    by_cases hr : r <+: k
    · obtain ⟨t, rfl⟩ := hr
      simp [below_cons_of_append, earlier, ih, List.prefix_append_right_inj]
    · have hne : k ≠ r ++ p := by
        rintro rfl
        exact hr (List.prefix_append r p)
      have hq : ¬ (r ++ q) <+: k := fun h => hr ((List.prefix_append r q).trans h)
      simp [below_cons_of_not_isPrefix hr, earlier, ih, hne, hq]

/-- An entry that comes last comes first only if it is alone. -/
theorem earlier_concat (k : List α) (v : ν) : earlier p q (es ++ [(k, v)]) ↔
    earlier p q es ∨ k = p ∧ ∀ e ∈ es, ¬ q <+: e.1 := by
  induction es with
  | nil => simp [earlier]
  | cons e es ih =>
    simp only [List.cons_append, earlier, Bool.or_eq_true, Bool.and_eq_true, decide_eq_true_eq, ih,
      List.forall_mem_cons]
    tauto

/-- Entries of other kinds do not matter. -/
theorem earlier_filter {P : List α × ν → Bool} (h : ∀ e ∈ es, e.1 = p ∨ q <+: e.1 → P e = true) :
    earlier p q (es.filter P) = earlier p q es := by
  induction es with
  | nil => rfl
  | cons e es ih =>
    have ih := ih fun e he => h e (List.mem_cons_of_mem _ he)
    by_cases hP : P e = true
    · rw [List.filter_cons_of_pos hP, earlier, earlier, ih]
    · have hne := not_or.mp (mt (h e List.mem_cons_self) hP)
      rw [List.filter_cons_of_neg hP, ih, earlier]
      simp [hne.1, hne.2]

theorem begun_below (r p q : List α) (es : List (List α × ν)) :
    begun p q (below r es) = begun (r ++ p) (r ++ q) es := by
  induction es with
  | nil => rfl
  | cons e es ih =>
    obtain ⟨k, v⟩ := e
    by_cases hr : r <+: k
    · obtain ⟨t, rfl⟩ := hr
      simp [below_cons_of_append, begun, ih, List.prefix_append_right_inj]
    · have hp : ¬ (r ++ p) <+: k := fun h => hr ((List.prefix_append r p).trans h)
      have hq : ¬ (r ++ q) <+: k := fun h => hr ((List.prefix_append r q).trans h)
      simp [below_cons_of_not_isPrefix hr, begun, ih, hp, hq]

theorem begun_filter {P : List α × ν → Bool} (h : ∀ e ∈ es, p <+: e.1 ∨ q <+: e.1 → P e = true) :
    begun p q (es.filter P) = begun p q es := by
  induction es with
  | nil => rfl
  | cons e es ih =>
    have ih := ih fun e he => h e (List.mem_cons_of_mem _ he)
    by_cases hP : P e = true
    · rw [List.filter_cons_of_pos hP, begun, begun, ih]
    · have hne := not_or.mp (mt (h e List.mem_cons_self) hP)
      rw [List.filter_cons_of_neg hP, ih, begun]
      simp [hne.1, hne.2]

end UvCpp.Systems
