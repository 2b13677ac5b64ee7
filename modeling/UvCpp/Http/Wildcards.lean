import UvCpp.Http.Routing
import Mathlib.Data.List.Perm.Basic

/-!
# Wildcards

A pattern that ends with `*` matches the paths that begin with the rest of it. What `get` finds for
a path is another thing (`route_eq_some_iff`). A wildcard answers where the search stops: it was
set before all patterns that begin with what is in front of the `*` and go on with the path's next
byte. If the search stops nowhere, only the path itself answers, and the path with a `*` behind it
if no other pattern goes on from the path.

From that follows that what is found matches (`get_sound`), when a path that a pattern matches is
found (`found_iff`), when a key that has just been set is (`get_set_iff`), when the order of the
settings does not matter (`get_perm_iff`), and when a pattern that does not match a path does not
(`get_unrelated_iff`).
-/

namespace UvCpp.Http

open UvCpp.Cpp UvCpp.Systems RadixTree

variable {Value : Type} {kvs kvs' : List (Bytes × Value)} {x u p : Bytes}

/-- A pattern matches a path: it is the path, or `*` behind what the path begins with. -/
def Matches (p x : Bytes) : Prop := p = x ∨ ∃ u, p = u ++ [WildCard] ∧ u <+: x

theorem matches_iff : Matches p x ↔ p = x ∨ p = p.dropLast ++ [WildCard] ∧ p.dropLast <+: x := by
  refine or_congr_right ⟨?_, fun h => ⟨p.dropLast, h⟩⟩
  rintro ⟨u, rfl, hpre⟩
  rw [List.dropLast_concat]
  exact ⟨rfl, hpre⟩

instance (p x : Bytes) : Decidable (Matches p x) :=
  decidable_of_iff _ matches_iff.symm

/-- The search for a path stops behind `u`: the wildcard there was set before all patterns that go on
with the next byte of the path. -/
def Stops (kvs : List (Bytes × Value)) (x u : Bytes) : Prop :=
  ∃ c t, x = u ++ c :: t ∧ c ≠ WildCard ∧ earlier (u ++ [WildCard]) (u ++ [c]) kvs

/-- It stops there, and not before. -/
def FirstStop (kvs : List (Bytes × Value)) (x u : Bytes) : Prop :=
  Stops kvs x u ∧ ∀ w, Stops kvs x w → u.length ≤ w.length

/-- The wildcard behind the whole path was set, and no other pattern begins with the path. -/
def Alone (kvs : List (Bytes × Value)) (x : Bytes) : Prop :=
  (∃ v, (x ++ [WildCard], v) ∈ kvs) ∧ ∀ kv ∈ kvs, x <+: kv.1 → kv.1 = x ++ [WildCard]

/-- The pattern that answers for a path. -/
inductive Answers (kvs : List (Bytes × Value)) (x : Bytes) : Bytes → Prop where
  /-- The wildcard where the search stops. -/
  | wildcard {u : Bytes} : FirstStop kvs x u → Answers kvs x (u ++ [WildCard])
  /-- The path, if the search does not stop. -/
  | exact : (∀ u, ¬ Stops kvs x u) → (∃ v, (x, v) ∈ kvs) → Answers kvs x x
  /-- The wildcard behind the path, if the search does not stop. -/
  | alone : (∀ u, ¬ Stops kvs x u) → Alone kvs x → Answers kvs x (x ++ [WildCard])

/-! ### Where a search stops -/

theorem not_stops_nil (kvs : List (Bytes × Value)) (u : Bytes) : ¬ Stops kvs [] u := by
  rintro ⟨c, t, hx, -⟩
  simp at hx

theorem stops_cons_iff {c : UInt8} : Stops kvs (c :: x) u ↔
    u = [] ∧ c ≠ WildCard ∧ earlier [WildCard] [c] kvs ∨ ∃ u', u = c :: u' ∧ Stops (below [c] kvs) x u' := by
  constructor
  · rintro ⟨d, t, hx, hd, hearlier⟩
    cases u with
    | nil =>
      obtain ⟨rfl, rfl⟩ := List.cons.inj hx
      exact .inl ⟨rfl, hd, hearlier⟩
    | cons b u =>
      obtain ⟨rfl, rfl⟩ := List.cons.inj hx
      refine .inr ⟨u, rfl, d, t, rfl, hd, ?_⟩
      rwa [earlier_below]
  · rintro (⟨rfl, hc, hearlier⟩ | ⟨u, rfl, d, t, rfl, hd, hearlier⟩)
    · exact ⟨c, x, rfl, hc, hearlier⟩
    · rw [earlier_below] at hearlier
      exact ⟨d, t, rfl, hd, hearlier⟩

theorem stops_iff : Stops kvs x u ↔ u <+: x ∧ ∃ c ∈ (x.drop u.length).head?, c ≠ WildCard ∧
    earlier (u ++ [WildCard]) (u ++ [c]) kvs := by
  constructor
  · rintro ⟨c, t, rfl, hc⟩
    exact ⟨List.prefix_append _ _, c, by simp, hc⟩
  · rintro ⟨⟨t, rfl⟩, c, hhead, hc⟩
    rw [List.drop_left] at hhead
    obtain ⟨t, rfl⟩ := List.head?_eq_some_iff.mp hhead
    exact ⟨c, t, rfl, hc⟩

instance (kvs : List (Bytes × Value)) (x u : Bytes) : Decidable (Stops kvs x u) :=
  decidable_of_iff _ stops_iff.symm

theorem Stops.isPrefix (h : Stops kvs x u) : u <+: x := by
  obtain ⟨c, t, rfl, -⟩ := h
  exact List.prefix_append _ _

/-- Where the search stops a wildcard was set. -/
theorem Stops.mem (h : Stops kvs x u) : ∃ v, (u ++ [WildCard], v) ∈ kvs := by
  obtain ⟨c, t, -, -, hearlier⟩ := h
  exact mem_of_earlier hearlier

theorem exists_firstStop (h : Stops kvs x u) : ∃ w, FirstStop kvs x w := by
  obtain ⟨w, hw, hmin⟩ := WellFounded.has_min (measure List.length).wf {u | Stops kvs x u} ⟨u, h⟩
  exact ⟨w, hw, fun u hu => not_lt.mp (hmin u hu)⟩

theorem FirstStop.unique (h : FirstStop kvs x u) {w : Bytes} (h' : FirstStop kvs x w) : u = w := by
  have hlen : u.length = w.length := le_antisymm (h.2 w h'.1) (h'.2 u h.1)
  exact (List.prefix_of_prefix_length_le h.1.isPrefix h'.1.isPrefix hlen.le).eq_of_length hlen

/-! ### What a search finds -/

theorem route_of_firstStop (h : FirstStop kvs x u) : route x kvs = lastSet kvs (u ++ [WildCard]) := by
  induction x generalizing kvs u with
  | nil => exact absurd h.1 (not_stops_nil kvs u)
  | cons c x ih =>
    obtain ⟨hstops, hmin⟩ := h
    rw [route]
    by_cases hc : c ≠ WildCard ∧ earlier [WildCard] [c] kvs
    · have hlen := hmin [] (stops_cons_iff.mpr (.inl ⟨rfl, hc⟩))
      rw [if_pos hc, List.length_eq_zero_iff.mp (Nat.le_zero.mp hlen), List.nil_append]
    · obtain ⟨-, hc'⟩ | ⟨u, rfl, hu⟩ := stops_cons_iff.mp hstops
      · exact absurd hc' hc
      · rw [if_neg hc, ih ⟨hu, fun w hw => ?_⟩, lastSet_below, List.singleton_append, List.cons_append]
        exact Nat.le_of_succ_le_succ (hmin (c :: w) (stops_cons_iff.mpr (.inr ⟨w, rfl, hw⟩)))

theorem route_of_not_stops (h : ∀ u, ¬ Stops kvs x u) : route x kvs = match lastSet kvs x with
    | some v => some v
    | none => if ∀ kv ∈ kvs, x <+: kv.1 → kv.1 = x ++ [WildCard] then lastSet kvs (x ++ [WildCard]) else none := by
  induction x generalizing kvs with
  | nil =>
    have hall : (∀ kv ∈ kvs, [] <+: kv.1 → kv.1 = [WildCard]) ↔ ∀ kv ∈ kvs, kv.1 = [WildCard] := by
      simp
    rw [route]
    cases lastSet kvs [] with
    | some v => rfl
    | none => exact (if_congr hall rfl rfl).symm
  | cons c x ih =>
    have hc : ¬ (c ≠ WildCard ∧ earlier [WildCard] [c] kvs) :=
      fun hc => h [] (stops_cons_iff.mpr (.inl ⟨rfl, hc⟩))
    have hrest : (∀ kv ∈ below [c] kvs, x <+: kv.1 → kv.1 = x ++ [WildCard]) ↔
        ∀ kv ∈ kvs, c :: x <+: kv.1 → kv.1 = c :: x ++ [WildCard] := by
      rw [forall_mem_below_iff (P := fun k => x <+: k → k = x ++ [WildCard])]
      constructor
      · rintro hall kv hkv ⟨t, ht⟩
        have heq := hall kv hkv (x ++ t) ht.symm (List.prefix_append x t)
        rw [← ht, List.cons_append, heq, List.cons_append]
      · rintro hall kv hkv k hk hpre
        have heq := hall kv hkv (by rw [hk]; exact List.cons_prefix_cons.mpr ⟨rfl, hpre⟩)
        rw [hk] at heq
        exact (List.cons.inj heq).2
    rw [route, if_neg hc, ih fun u hu => h (c :: u) (stops_cons_iff.mpr (.inr ⟨u, rfl, hu⟩)), lastSet_below,
      lastSet_below]
    simp only [hrest, List.nil_append, List.cons_append]

theorem lastSet_isSome_iff {k : Bytes} : (∃ v, lastSet kvs k = some v) ↔ ∃ v, (k, v) ∈ kvs := by
  constructor
  · rintro ⟨v, hv⟩
    exact ⟨v, mem_of_lastSet hv⟩
  · rintro ⟨v, hv⟩
    rw [← Option.ne_none_iff_exists']
    intro hnone
    exact lastSet_eq_none_iff.mp hnone _ hv rfl

theorem Alone.lastSet_eq_none (h : Alone kvs x) : lastSet kvs x = none := by
  rw [lastSet_eq_none_iff]
  rintro kv hkv rfl
  have heq := h.2 kv hkv List.prefix_rfl
  simp at heq

/-- **What a search finds** is the value set last for the pattern that answers. -/
theorem route_eq_some_iff {v : Value} :
    route x kvs = some v ↔ ∃ p, Answers kvs x p ∧ lastSet kvs p = some v := by
  by_cases hstop : ∃ u, Stops kvs x u
  · obtain ⟨u, hu⟩ := hstop
    obtain ⟨w, hw⟩ := exists_firstStop hu
    rw [route_of_firstStop hw]
    constructor
    · intro h
      exact ⟨_, .wildcard hw, h⟩
    · rintro ⟨p, hanswers, h⟩
      cases hanswers with
      | wildcard hw' => rwa [hw.unique hw']
      | exact hnot _ => exact absurd hu (hnot u)
      | alone hnot _ => exact absurd hu (hnot u)
  · rw [not_exists] at hstop
    rw [route_of_not_stops hstop]
    constructor
    · intro h
      split at h
      · next w hw =>
        cases h
        exact ⟨x, .exact hstop ⟨v, mem_of_lastSet hw⟩, hw⟩
      · split at h
        · next hall => exact ⟨_, .alone hstop ⟨⟨v, mem_of_lastSet h⟩, hall⟩, h⟩
        · cases h
    · rintro ⟨p, hanswers, h⟩
      cases hanswers with
      | wildcard hw => exact absurd hw.1 (hstop _)
      | exact _ _ => rw [h]
      | alone _ halone => rw [halone.lastSet_eq_none, if_pos halone.2, h]

/-- A search finds something when a pattern answers. -/
theorem route_isSome_iff : (∃ v, route x kvs = some v) ↔
    (∃ u, Stops kvs x u) ∨ (∃ v, (x, v) ∈ kvs) ∨ Alone kvs x := by
  constructor
  · rintro ⟨v, h⟩
    obtain ⟨p, hanswers, -⟩ := route_eq_some_iff.mp h
    cases hanswers with
    | wildcard hw => exact .inl ⟨_, hw.1⟩
    | exact _ hmem => exact .inr (.inl hmem)
    | alone _ halone => exact .inr (.inr halone)
  · intro h
    by_cases hstop : ∃ u, Stops kvs x u
    · obtain ⟨u, hu⟩ := hstop
      obtain ⟨w, hw⟩ := exists_firstStop hu
      obtain ⟨v, hv⟩ := lastSet_isSome_iff.mpr hw.1.mem
      exact ⟨v, route_eq_some_iff.mpr ⟨_, .wildcard hw, hv⟩⟩
    · rw [not_exists] at hstop
      rcases h with ⟨u, hu⟩ | hmem | halone
      · exact absurd hu (hstop u)
      · obtain ⟨v, hv⟩ := lastSet_isSome_iff.mpr hmem
        exact ⟨v, route_eq_some_iff.mpr ⟨x, .exact hstop hmem, hv⟩⟩
      · obtain ⟨v, hv⟩ := lastSet_isSome_iff.mpr halone.1
        exact ⟨v, route_eq_some_iff.mpr ⟨_, .alone hstop halone, hv⟩⟩

/-- A pattern that answers for a path matches it. -/
theorem Answers.matches (h : Answers kvs x p) : Matches p x := by
  cases h with
  | wildcard hw => exact .inr ⟨_, rfl, hw.1.isPrefix⟩
  | exact _ _ => exact .inl rfl
  | alone _ _ => exact .inr ⟨x, rfl, List.prefix_rfl⟩

/-! ### Paths that a pattern matches -/

namespace RadixTree

/-- **What is found matches**: after any settings of patterns in which `*` comes last or not at all, a value
that is found is the one set last for a pattern that matches the path. -/
theorem get_sound (kvs : List (Bytes × Value)) (hne : kvs ≠ []) (hkvs : ∀ kv ∈ kvs, kv.1 ≠ [] ∧ Routable kv.1) :
    ∃ t : RadixTree Value, new.setAll kvs = .ok t ∧ ∀ x, x ≠ [] → ∀ v, t.get x = .ok (some v) →
      ∃ p, Matches p x ∧ lastSet kvs p = some v := by
  obtain ⟨t, ht, hget⟩ := get_eq_route hkvs
  refine ⟨t, ht, fun x hx v hv => ?_⟩
  rw [hget hne x hx, Except.ok.injEq] at hv
  obtain ⟨p, hanswers, hlast⟩ := route_eq_some_iff.mp hv
  exact ⟨p, hanswers.matches, hlast⟩

/-- Two routes that begin alike, one of them set twice. -/
theorem get_sound_sample : ∃ t : RadixTree ℕ,
    new.setAll [(bytes "/test", 0), (bytes "/*", 1), (bytes "/te*", 2), (bytes "/*", 3)] = .ok t ∧
      ∀ x, x ≠ [] → ∀ v, t.get x = .ok (some v) → ∃ p, Matches p x ∧
        lastSet [(bytes "/test", 0), (bytes "/*", 1), (bytes "/te*", 2), (bytes "/*", 3)] p = some v :=
  get_sound _ (by simp) (by decide)

/-- **When a path that a pattern matches is found**: the search stops at a wildcard, or the path was
set, or a `*` behind it and nothing else that begins with it. -/
theorem found_iff (kvs : List (Bytes × Value)) (hkvs : ∀ kv ∈ kvs, kv.1 ≠ [] ∧ Routable kv.1) (x : Bytes)
    (hx : x ≠ []) : ∃ t : RadixTree Value, new.setAll kvs = .ok t ∧
      (((∃ kv ∈ kvs, Matches kv.1 x) → ∃ v, t.get x = .ok (some v)) ↔
        ((∃ kv ∈ kvs, Matches kv.1 x) →
          (∃ u, Stops kvs x u) ∨ (∃ v, (x, v) ∈ kvs) ∨ Alone kvs x)) := by
  obtain ⟨t, ht, hget⟩ := get_eq_route hkvs
  refine ⟨t, ht, imp_congr_right fun hmatched => ?_⟩
  obtain ⟨kv, hkv, -⟩ := hmatched
  rw [← route_isSome_iff, hget (List.ne_nil_of_mem hkv) x hx]
  simp only [Except.ok.injEq]

theorem found_iff_sample : ∃ t : RadixTree ℕ, new.setAll [(bytes "/test", 0), (bytes "/*", 1)] = .ok t ∧
    ∃ v, t.get (bytes "/index") = .ok (some v) := by
  obtain ⟨t, ht, hiff⟩ := found_iff [(bytes "/test", 0), (bytes "/*", 1)] (by decide) (bytes "/index") (by decide)
  have hstops : Stops [(bytes "/test", 0), (bytes "/*", 1)] (bytes "/index") (bytes "/") := by decide
  exact ⟨t, ht, hiff.mpr (fun _ => .inl ⟨_, hstops⟩) ⟨(bytes "/*", 1), by decide, by decide⟩⟩

/-- **A default route does not answer for all paths**: one that begins as another route does is not
found. -/
theorem not_found_default : ∃ t : RadixTree ℕ, new.setAll [(bytes "/test", 0), (bytes "/*", 1)] = .ok t ∧
    Matches (bytes "/*") (bytes "/tx") ∧ ¬ ∃ v, t.get (bytes "/tx") = .ok (some v) := by
  refine ⟨_, rfl, by decide, ?_⟩
  rintro ⟨v, hv⟩
  cases hv

/-! ### A key that has just been set -/

/-- One more setting does not change where the search for its key stops. -/
theorem stops_concat_self (v : Value) : Stops (kvs ++ [(x, v)]) x u ↔ Stops kvs x u := by
  refine exists_congr fun c => exists_congr fun t => and_congr_right fun hx => and_congr_right fun hc => ?_
  rw [earlier_concat, or_iff_left]
  rintro ⟨heq, -⟩
  rw [hx] at heq
  exact hc (List.cons.inj (List.append_cancel_left heq)).1

/-- The key answers with the value set last, unless a wildcard stops the search before it. -/
theorem route_concat_self_iff (v : Value) : route x (kvs ++ [(x, v)]) = some v ↔
    ∀ u, FirstStop kvs x u → lastSet kvs (u ++ [WildCard]) = some v := by
  have hfirst (u : Bytes) : FirstStop (kvs ++ [(x, v)]) x u ↔ FirstStop kvs x u := by
    simp only [FirstStop, stops_concat_self]
  by_cases hstop : ∃ u, Stops kvs x u
  · obtain ⟨u, hu⟩ := hstop
    obtain ⟨w, hw⟩ := exists_firstStop hu
    have hne : w ++ [WildCard] ≠ x := by
      obtain ⟨c, t, hx, hc, -⟩ := hw.1
      rw [hx]
      intro heq
      exact hc (List.cons.inj (List.append_cancel_left heq)).1.symm
    rw [route_of_firstStop ((hfirst w).mpr hw), lastSet_concat, if_neg hne]
    exact ⟨fun h u hu => by rwa [hu.unique hw], fun h => h w hw⟩
  · rw [not_exists] at hstop
    refine iff_of_true ?_ fun u hu => absurd hu.1 (hstop u)
    rw [route_of_not_stops fun u => mt (stops_concat_self v).mp (hstop u), lastSet_concat, if_pos rfl]

/-- **When a key that has just been set is found, with its value**: the search for it stops at no
wildcard that was set before, or at one with the same value. -/
theorem get_set_iff (kvs : List (Bytes × Value)) (hkvs : ∀ kv ∈ kvs, kv.1 ≠ [] ∧ Routable kv.1) (key : Bytes)
    (hkey : key ≠ [] ∧ Routable key) (v : Value) : ∃ t t' : RadixTree Value, new.setAll kvs = .ok t ∧
      t.set key v = .ok t' ∧ (t'.get key = .ok (some v) ↔
        ∀ u, FirstStop kvs key u → lastSet kvs (u ++ [WildCard]) = some v) := by
  have hall : ∀ kv ∈ kvs ++ [(key, v)], kv.1 ≠ [] ∧ Routable kv.1 := by
    simp only [List.forall_mem_append, List.forall_mem_singleton]
    exact ⟨hkvs, hkey⟩
  obtain ⟨t, ht, -⟩ := get_eq_route hkvs
  obtain ⟨t', ht', hget⟩ := get_eq_route hall
  refine ⟨t, t', ht, (setAll_concat ht _).symm.trans ht', ?_⟩
  rw [hget (by simp) key hkey.1, Except.ok.injEq]
  exact route_concat_self_iff v

theorem get_set_iff_sample : ∃ t t' : RadixTree ℕ,
    new.setAll [(bytes "/some*", 0), (bytes "/test", 1)] = .ok t ∧ t.set (bytes "/sum") 2 = .ok t' ∧
      t'.get (bytes "/sum") = .ok (some 2) := by
  obtain ⟨t, t', ht, ht', hiff⟩ := get_set_iff [(bytes "/some*", 0), (bytes "/test", 1)] (by decide)
    (bytes "/sum") (by decide) 2
  refine ⟨t, t', ht, ht', hiff.mpr fun u hu => ?_⟩
  have hnot : ∀ u ∈ (bytes "/sum").inits, ¬ Stops [(bytes "/some*", 0), (bytes "/test", 1)] (bytes "/sum") u := by
    decide
  exact absurd hu.1 (hnot u ((List.mem_inits _ _).mpr hu.1.isPrefix))

/-- **A wildcard that was set before hides a key**: the value found is not the one that was set. -/
theorem not_get_set_hidden : ∃ t t' : RadixTree ℕ, new.setAll [(bytes "/*", 0)] = .ok t ∧
    t.set (bytes "/test") 1 = .ok t' ∧ t'.get (bytes "/test") = .ok (some 0) := ⟨_, _, rfl, rfl, rfl⟩

/-! ### The order of the settings -/

/-- With distinct keys each value is set once. -/
theorem lastSet_eq_some_iff_mem (hdistinct : (kvs.map Prod.fst).Nodup) {k : Bytes} {v : Value} :
    lastSet kvs k = some v ↔ (k, v) ∈ kvs := by
  refine ⟨mem_of_lastSet, fun hmem => ?_⟩
  obtain ⟨w, hw⟩ := lastSet_isSome_iff.mpr ⟨v, hmem⟩
  have heq := List.inj_on_of_nodup_map hdistinct (mem_of_lastSet hw) hmem rfl
  rw [hw, (Prod.mk.inj heq).2]

theorem lastSet_perm (hperm : kvs.Perm kvs') (hdistinct : (kvs.map Prod.fst).Nodup) (k : Bytes) :
    lastSet kvs k = lastSet kvs' k := by
  ext v
  rw [lastSet_eq_some_iff_mem hdistinct, lastSet_eq_some_iff_mem ((hperm.map _).nodup_iff.mp hdistinct),
    hperm.mem_iff]

/-- With the same first stop, a search finds the same in both orders. -/
theorem route_perm (hperm : kvs.Perm kvs') (hdistinct : (kvs.map Prod.fst).Nodup)
    (hstops : ∀ u, FirstStop kvs x u ↔ FirstStop kvs' x u) : route x kvs = route x kvs' := by
  by_cases hstop : ∃ u, Stops kvs x u
  · obtain ⟨u, hu⟩ := hstop
    obtain ⟨w, hw⟩ := exists_firstStop hu
    rw [route_of_firstStop hw, route_of_firstStop ((hstops w).mp hw), lastSet_perm hperm hdistinct]
  · rw [not_exists] at hstop
    have hstop' : ∀ u, ¬ Stops kvs' x u := by
      intro u hu
      obtain ⟨w, hw⟩ := exists_firstStop hu
      exact hstop w ((hstops w).mpr hw).1
    have hall : (∀ kv ∈ kvs, x <+: kv.1 → kv.1 = x ++ [WildCard]) ↔
        ∀ kv ∈ kvs', x <+: kv.1 → kv.1 = x ++ [WildCard] := by
      simp only [hperm.mem_iff]
    rw [route_of_not_stops hstop, route_of_not_stops hstop', lastSet_perm hperm hdistinct,
      lastSet_perm hperm hdistinct]
    simp only [hall]

/-- Two trees give the same answer for a path if their settings do; before the first setting there is
nothing to search. -/
theorem same_get_iff {t t' : RadixTree Value} (ht : new.setAll kvs = .ok t)
    (hget : kvs ≠ [] → ∀ x, x ≠ [] → t.get x = .ok (route x kvs))
    (hget' : kvs ≠ [] → ∀ x, x ≠ [] → t'.get x = .ok (route x kvs')) (hx : x ≠ []) :
    (∃ r, t.get x = .ok r ∧ t'.get x = .ok r) ↔ kvs ≠ [] ∧ route x kvs = route x kvs' := by
  by_cases hne : kvs = []
  · subst hne
    cases ht
    refine iff_of_false ?_ fun h => h.1 rfl
    rintro ⟨r, hr, -⟩
    cases hr
  · rw [hget hne x hx, hget' hne x hx, and_iff_right hne]
    simp only [Except.ok.injEq, exists_eq_left']
    exact eq_comm

/-- Where different patterns answer in two orders of the same settings, their values decide. -/
theorem route_eq_iff_of_perm (hperm : kvs.Perm kvs') (hdistinct : (kvs.map Prod.fst).Nodup) :
    route x kvs = route x kvs' ↔ (∀ u, FirstStop kvs x u ↔ FirstStop kvs' x u) ∨
      ∃ p p' v, Answers kvs x p ∧ Answers kvs' x p' ∧ (p, v) ∈ kvs ∧ (p', v) ∈ kvs := by
  constructor
  · intro hsame
    by_cases hstops : ∀ u, FirstStop kvs x u ↔ FirstStop kvs' x u
    · exact .inl hstops
    · -- one of the searches stops, and finds something
      obtain ⟨v, hv⟩ : ∃ v, route x kvs = some v := by
        rw [not_forall] at hstops
        obtain ⟨u, hu⟩ := hstops
        by_cases hfirst : FirstStop kvs x u
        · exact route_isSome_iff.mpr (.inl ⟨u, hfirst.1⟩)
        · have hfirst' : FirstStop kvs' x u := by
            by_contra hnot
            exact hu (iff_of_false hfirst hnot)
          rw [hsame]
          exact route_isSome_iff.mpr (.inl ⟨u, hfirst'.1⟩)
      obtain ⟨p, hp, hvalue⟩ := route_eq_some_iff.mp hv
      obtain ⟨p', hp', hvalue'⟩ := route_eq_some_iff.mp (hsame.symm.trans hv)
      exact .inr ⟨p, p', v, hp, hp', mem_of_lastSet hvalue, hperm.mem_iff.mpr (mem_of_lastSet hvalue')⟩
  · rintro (hstops | ⟨p, p', v, hp, hp', hmem, hmem'⟩)
    · exact route_perm hperm hdistinct hstops
    · have hvalue : lastSet kvs p' = some v := (lastSet_eq_some_iff_mem hdistinct).mpr hmem'
      rw [route_eq_some_iff.mpr ⟨p, hp, (lastSet_eq_some_iff_mem hdistinct).mpr hmem⟩,
        route_eq_some_iff.mpr ⟨p', hp', by rwa [← lastSet_perm hperm hdistinct]⟩]

/-- **When two orders of the same settings lead to the same answer**: the searches stop first at the
same wildcard, or at none; or patterns with the same value answer. -/
theorem get_perm_iff (kvs kvs' : List (Bytes × Value)) (hperm : kvs.Perm kvs')
    (hdistinct : (kvs.map Prod.fst).Nodup) (hkvs : ∀ kv ∈ kvs, kv.1 ≠ [] ∧ Routable kv.1) (x : Bytes)
    (hx : x ≠ []) : ∃ t t' : RadixTree Value, new.setAll kvs = .ok t ∧ new.setAll kvs' = .ok t' ∧
      ((∃ r, t.get x = .ok r ∧ t'.get x = .ok r) ↔ kvs ≠ [] ∧
        ((∀ u, FirstStop kvs x u ↔ FirstStop kvs' x u) ∨
          ∃ p p' v, Answers kvs x p ∧ Answers kvs' x p' ∧ (p, v) ∈ kvs ∧ (p', v) ∈ kvs)) := by
  have hkvs' : ∀ kv ∈ kvs', kv.1 ≠ [] ∧ Routable kv.1 := fun kv hkv => hkvs kv (hperm.mem_iff.mpr hkv)
  obtain ⟨t, ht, hget⟩ := get_eq_route hkvs
  obtain ⟨t', ht', hget'⟩ := get_eq_route hkvs'
  refine ⟨t, t', ht, ht', ?_⟩
  rw [same_get_iff ht hget (fun hne => hget' fun hnil => hne (List.perm_nil.mp (hnil ▸ hperm))) hx]
  exact and_congr_right fun _ => route_eq_iff_of_perm hperm hdistinct

theorem get_perm_iff_sample : ∃ t t' : RadixTree ℕ,
    new.setAll [(bytes "/some*", 0), (bytes "/test", 1)] = .ok t ∧
      new.setAll [(bytes "/test", 1), (bytes "/some*", 0)] = .ok t' ∧
        ∃ r, t.get (bytes "/some") = .ok r ∧ t'.get (bytes "/some") = .ok r := by
  obtain ⟨t, t', ht, ht', hiff⟩ := get_perm_iff [(bytes "/some*", 0), (bytes "/test", 1)]
    [(bytes "/test", 1), (bytes "/some*", 0)] (List.Perm.swap _ _ _) (by decide) (by decide) (bytes "/some")
    (by decide)
  have hnot : ∀ u ∈ (bytes "/some").inits, ¬ Stops [(bytes "/some*", 0), (bytes "/test", 1)] (bytes "/some") u ∧
      ¬ Stops [(bytes "/test", 1), (bytes "/some*", 0)] (bytes "/some") u := by
    decide
  have hfirst (u : Bytes) : FirstStop [(bytes "/some*", 0), (bytes "/test", 1)] (bytes "/some") u ↔
      FirstStop [(bytes "/test", 1), (bytes "/some*", 0)] (bytes "/some") u :=
    iff_of_false (fun h => (hnot u ((List.mem_inits _ _).mpr h.1.isPrefix)).1 h.1)
      fun h => (hnot u ((List.mem_inits _ _).mpr h.1.isPrefix)).2 h.1
  exact ⟨t, t', ht, ht', hiff.mpr ⟨by decide, .inl hfirst⟩⟩

/-- **The order of the settings matters**: a default route that is set first answers for what it does
not when it is set last. -/
theorem not_get_perm : ∃ t t' : RadixTree ℕ,
    new.setAll [(bytes "/*", 0), (bytes "/ab", 1)] = .ok t ∧
      new.setAll [(bytes "/ab", 1), (bytes "/*", 0)] = .ok t' ∧
        t.get (bytes "/ac") = .ok (some 0) ∧ t'.get (bytes "/ac") = .ok none := ⟨_, _, rfl, rfl, rfl, rfl⟩

/-! ### Patterns that do not match -/

/-- A pattern that does not match a path does not change where the search for it stops. -/
theorem stops_concat_of_not_matches {q : Bytes} (hnot : ¬ Matches q x) (v : Value) :
    Stops (kvs ++ [(q, v)]) x u ↔ Stops kvs x u := by
  refine exists_congr fun c => exists_congr fun t => and_congr_right fun hx => and_congr_right fun _ => ?_
  rw [earlier_concat, or_iff_left]
  rintro ⟨rfl, -⟩
  exact hnot (.inr ⟨u, rfl, hx ▸ List.prefix_append _ _⟩)

/-- What a pattern changes that does not match a path: the wildcard behind the path answered, as no other
pattern began with the path, and the new one does. -/
theorem route_concat_eq_iff {q : Bytes} (hnot : ¬ Matches q x) (v : Value) :
    route x kvs = route x (kvs ++ [(q, v)]) ↔ ¬ (x <+: q ∧ Alone kvs x ∧ ∀ u, ¬ Stops kvs x u) := by
  have hlast (k : Bytes) (hk : Matches k x) : lastSet (kvs ++ [(q, v)]) k = lastSet kvs k := by
    rw [lastSet_concat, if_neg]
    rintro rfl
    exact hnot hk
  by_cases hstop : ∃ u, Stops kvs x u
  · obtain ⟨u, hu⟩ := hstop
    obtain ⟨w, hw⟩ := exists_firstStop hu
    have hw' : FirstStop (kvs ++ [(q, v)]) x w := by
      simpa only [FirstStop, stops_concat_of_not_matches hnot] using hw
    rw [route_of_firstStop hw, route_of_firstStop hw', hlast _ (.inr ⟨w, rfl, hw.1.isPrefix⟩)]
    exact iff_of_true rfl fun h => h.2.2 u hu
  · rw [not_exists] at hstop
    rw [route_of_not_stops hstop, route_of_not_stops fun u => mt (stops_concat_of_not_matches hnot v).mp (hstop u),
      hlast x (.inl rfl), hlast _ (.inr ⟨x, rfl, List.prefix_rfl⟩)]
    have hstar : q ≠ x ++ [WildCard] := by
      rintro rfl
      exact hnot (.inr ⟨x, rfl, List.prefix_rfl⟩)
    simp only [List.forall_mem_append, List.forall_mem_singleton, hstar, imp_false]
    cases hsome : lastSet kvs x with
    | some w => exact iff_of_true rfl fun h => by rw [h.2.1.lastSet_eq_none] at hsome; cases hsome
    | none =>
      by_cases hpre : x <+: q
      · simp only [hpre, not_true_eq_false, and_false, if_false, true_and, Alone]
        split
        · next hrest =>
          -- the wildcard behind the path answered, if it was set
          rw [lastSet_eq_none_iff]
          constructor
          · rintro hnone ⟨⟨⟨w, hw⟩, -⟩, -⟩
            exact hnone _ hw rfl
          · rintro hnot kv hkv heq
            exact hnot ⟨⟨⟨kv.2, heq ▸ hkv⟩, hrest⟩, hstop⟩
        · next hrest => exact iff_of_true rfl fun h => hrest h.1.2
      · exact iff_of_true (if_congr (and_iff_left hpre) rfl rfl).symm fun h => hpre h.1

/-- **When a pattern that does not match a path does not change what is found for it**: except where a
`*` behind the path answered, as no other pattern began with the path, and the new one does. -/
theorem get_unrelated_iff (kvs : List (Bytes × Value)) (hkvs : ∀ kv ∈ kvs, kv.1 ≠ [] ∧ Routable kv.1)
    (q : Bytes) (hq : q ≠ [] ∧ Routable q) (v : Value) (x : Bytes) (hx : x ≠ []) (hnot : ¬ Matches q x) :
    ∃ t t' : RadixTree Value, new.setAll kvs = .ok t ∧ t.set q v = .ok t' ∧
      ((∃ r, t.get x = .ok r ∧ t'.get x = .ok r) ↔
        kvs ≠ [] ∧ ¬ (x <+: q ∧ Alone kvs x ∧ ∀ u, ¬ Stops kvs x u)) := by
  have hall : ∀ kv ∈ kvs ++ [(q, v)], kv.1 ≠ [] ∧ Routable kv.1 := by
    simp only [List.forall_mem_append, List.forall_mem_singleton]
    exact ⟨hkvs, hq⟩
  obtain ⟨t, ht, hget⟩ := get_eq_route hkvs
  obtain ⟨t', ht', hget'⟩ := get_eq_route hall
  refine ⟨t, t', ht, (setAll_concat ht _).symm.trans ht', ?_⟩
  rw [same_get_iff ht hget (fun _ => hget' (by simp)) hx]
  exact and_congr_right fun _ => route_concat_eq_iff hnot v

theorem get_unrelated_iff_sample : ∃ t t' : RadixTree ℕ, new.setAll [(bytes "/some*", 0)] = .ok t ∧
    t.set (bytes "/test") 1 = .ok t' ∧
      ∃ r, t.get (bytes "/something") = .ok r ∧ t'.get (bytes "/something") = .ok r := by
  obtain ⟨t, t', ht, ht', hiff⟩ := get_unrelated_iff [(bytes "/some*", 0)] (by decide) (bytes "/test")
    (by decide) 1 (bytes "/something") (by decide) (by decide)
  exact ⟨t, t', ht, ht', hiff.mpr ⟨by decide, fun h => absurd h.1 (by decide)⟩⟩

/-- **A route that does not match a path can hide it**: the wildcard behind the path answered, and the
new route begins with the path. -/
theorem not_get_unrelated : ∃ t t' : RadixTree ℕ, new.setAll [(bytes "/some*", 0)] = .ok t ∧
    t.set (bytes "/somex") 1 = .ok t' ∧ ¬ Matches (bytes "/somex") (bytes "/some") ∧
      t.get (bytes "/some") = .ok (some 0) ∧ t'.get (bytes "/some") = .ok none :=
  ⟨_, _, rfl, rfl, by decide, rfl, rfl⟩

end RadixTree

end UvCpp.Http
