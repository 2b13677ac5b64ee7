import UvCpp.Http.Wildcards

/-!
# The shape of a radix tree

What can be said of the nodes of a tree itself, and not only of what a search finds: that no node has an
empty key, that siblings begin with different bytes, that an empty node has at least two children
(`Shaped`), and what the nodes that are not empty spell and hold (`entries`). All of it follows from what
the tree was made by, so it is so after any settings, of any keys that are not empty (`shape_setAll`).
-/

namespace UvCpp.Http

open UvCpp.Cpp UvCpp.Systems RadixTree

variable {Value : Type} {kvs : List (Bytes × Value)} {t : RadixTreeNodePtr Value}

namespace RadixTreeNodePtr

/-- The first bytes of the keys in a chain of siblings. -/
def firstBytes : RadixTreeNodePtr Value → List (Option UInt8)
  | null => []
  | node _ key _ next _ => key.head? :: next.firstBytes

/-- The representation invariant, of all nodes of a tree. -/
def Shaped : RadixTreeNodePtr Value → Prop
  | null => True
  | node isEmpty key child next value =>
    -- it has a key
    key ≠ [] ∧
    -- it and the siblings behind it begin with different bytes
    (node isEmpty key child next value).firstBytes.Nodup ∧
    -- if it is empty, it has at least two children
    (isEmpty = true → 2 ≤ child.firstBytes.length) ∧
    child.Shaped ∧ next.Shaped

/-- The nodes of a tree that are not empty: the keys on the path to each, put together, and its value. -/
def entries : RadixTreeNodePtr Value → List (Bytes × Value)
  | null => []
  | node isEmpty key child next value =>
    (if isEmpty then [] else [(key, value)]) ++ child.entries.map (fun kv => (key ++ kv.1, kv.2)) ++ next.entries

end RadixTreeNodePtr

open RadixTreeNodePtr

/-! ### Settings of siblings and children -/

theorem lastSet_behind {p k : Bytes} (hk : k ≠ []) : lastSet (behind p kvs) k = lastSet kvs (p ++ k) := by
  rw [behind, lastSet_filter fun _ => decide_eq_true hk, lastSet_below]

theorem lastSet_behind_nil (p : Bytes) (kvs : List (Bytes × Value)) : lastSet (behind p kvs) [] = none := by
  rw [lastSet_eq_none_iff]
  rintro ⟨k, v⟩ hkv
  exact (mem_behind_iff.mp hkv).2

theorem lastSet_others {nodeKey k : Bytes} (hk : k.head? ≠ nodeKey.head?) :
    lastSet (others nodeKey kvs) k = lastSet kvs k := by
  rw [others, lastSet_filter fun _ => decide_eq_true hk]

theorem lastSet_others_of_eq {nodeKey k : Bytes} (hk : k.head? = nodeKey.head?) :
    lastSet (others nodeKey kvs) k = none := by
  rw [lastSet_eq_none_iff]
  rintro kv hkv rfl
  simp [others, hk] at hkv

/-! ### Chains of siblings -/

/-- The siblings begin with the bytes with which keys that were set begin. -/
theorem RadixTreeNodePtr.Holds.mem_firstBytes_iff (h : t.Holds kvs) {c : Option UInt8} :
    c ∈ t.firstBytes ↔ ∃ kv ∈ kvs, kv.1.head? = c := by
  induction t generalizing kvs with
  | null =>
    obtain rfl : kvs = [] := h
    simp [firstBytes]
  | node isEmpty key child next value _ ihn =>
    obtain ⟨hnode, -, hnext⟩ := h
    rw [firstBytes, List.mem_cons, ihn hnext]
    constructor
    · rintro (rfl | ⟨kv, hkv, hhead⟩)
      · obtain ⟨kv, hfirst, hhead⟩ := hnode.first
        exact ⟨kv, List.mem_of_head? hfirst, hhead⟩
      · exact ⟨kv, List.mem_of_mem_filter hkv, hhead⟩
    · rintro ⟨kv, hkv, rfl⟩
      by_cases hhead : kv.1.head? = key.head?
      · exact .inl hhead
      · exact .inr ⟨kv, List.mem_filter.mpr ⟨hkv, decide_eq_true hhead⟩, rfl⟩

theorem RadixTreeNodePtr.Holds.nodup_firstBytes (h : t.Holds kvs) : t.firstBytes.Nodup := by
  induction t generalizing kvs with
  | null => exact List.nodup_nil
  | node isEmpty key child next value _ ihn =>
    obtain ⟨-, -, hnext⟩ := h
    rw [firstBytes, List.nodup_cons, hnext.mem_firstBytes_iff]
    refine ⟨?_, ihn hnext⟩
    rintro ⟨kv, hkv, hhead⟩
    simp [others, hhead] at hkv

/-- Where two keys part there are two siblings. -/
theorem MadeBy.two_le_children {key : Bytes} {child : RadixTreeNodePtr Value} {value : Value}
    (h : MadeBy true key value kvs) (hchild : child.Holds (behind key kvs)) : 2 ≤ child.firstBytes.length := by
  have hmem {x : UInt8} (hx : ∃ kv ∈ kvs, key ++ [x] <+: kv.1) : some x ∈ child.firstBytes := by
    obtain ⟨⟨_, v⟩, hkv, u, rfl⟩ := hx
    rw [List.append_assoc, List.singleton_append] at hkv
    exact hchild.mem_firstBytes_iff.mpr ⟨(x :: u, v), mem_behind_iff.mpr ⟨hkv, List.cons_ne_nil x u⟩, rfl⟩
  obtain ⟨a, b, hab, ha, hb⟩ := h.parts rfl
  have hpair : [some a, some b].Nodup := by simpa using hab
  have hsub : [some a, some b] ⊆ child.firstBytes := by
    simp only [List.cons_subset, List.nil_subset, and_true]
    exact ⟨hmem ha, hmem hb⟩
  exact (List.subperm_of_subset hpair hsub).length_le

/-- **A tree that was made by settings has the shape of one.** -/
theorem RadixTreeNodePtr.Holds.shaped (h : t.Holds kvs) : t.Shaped := by
  induction t generalizing kvs with
  | null => exact trivial
  | node isEmpty key child next value ihc ihn =>
    refine ⟨h.1.nonempty, h.nodup_firstBytes, ?_, ihc h.2.1, ihn h.2.2⟩
    rintro rfl
    exact h.1.two_le_children h.2.1

/-! ### What the nodes spell -/

/-- The setting of a key, where a node was made by the settings: its own, one below it, or one of a sibling. -/
theorem MadeBy.lastSet_eq_some_iff {isEmpty : Bool} {key : Bytes} {value : Value}
    (h : MadeBy isEmpty key value kvs) {k : Bytes} {v : Value} : lastSet kvs k = some v ↔
      (isEmpty = false ∧ k = key ∧ v = value) ∨ (∃ k', k = key ++ k' ∧ lastSet (behind key kvs) k' = some v) ∨
        lastSet (others key kvs) k = some v := by
  by_cases hhead : k.head? = key.head?
  · rw [lastSet_others_of_eq hhead]
    simp only [reduceCtorEq, or_false]
    by_cases hpre : key <+: k
    · obtain ⟨k', rfl⟩ := hpre
      simp only [List.append_cancel_left_eq, exists_eq_left']
      by_cases hk' : k' = []
      · subst hk'
        rw [List.append_nil, lastSet_behind_nil]
        cases isEmpty with
        | false => simp [h.value rfl, eq_comm]
        | true => simp [h.unset rfl]
      · rw [lastSet_behind hk']
        simp [hk']
    · refine iff_of_false (fun hset => hpre (h.shared _ (mem_of_lastSet hset) hhead)) ?_
      rintro (⟨-, rfl, -⟩ | ⟨k', rfl, -⟩)
      · exact hpre List.prefix_rfl
      · exact hpre (List.prefix_append key k')
  · rw [lastSet_others hhead, or_iff_right, or_iff_right]
    · rintro ⟨k', rfl, -⟩
      exact hhead (List.head?_append_of_ne_nil _ h.nonempty)
    · rintro ⟨-, rfl, -⟩
      exact hhead rfl

/-- **The nodes that are not empty spell the keys that were set**, each with the value set last. -/
theorem RadixTreeNodePtr.Holds.mem_entries_iff (h : t.Holds kvs) {k : Bytes} {v : Value} :
    (k, v) ∈ t.entries ↔ lastSet kvs k = some v := by
  induction t generalizing kvs k with
  | null =>
    obtain rfl : kvs = [] := h
    simp [entries, lastSet]
  | node isEmpty key child next value ihc ihn =>
    obtain ⟨hnode, hchild, hnext⟩ := h
    rw [entries, List.mem_append, List.mem_append, hnode.lastSet_eq_some_iff, or_assoc, ihn hnext]
    refine or_congr ?_ (or_congr_left ?_)
    · cases isEmpty <;> simp
    · simp only [List.mem_map, Prod.mk.injEq, Prod.exists]
      constructor
      · rintro ⟨k', v, hmem, rfl, rfl⟩
        exact ⟨k', rfl, (ihc hchild).mp hmem⟩
      · rintro ⟨k', rfl, hset⟩
        exact ⟨k', v, (ihc hchild).mpr hset, rfl, rfl⟩

/-- Each key is spelled once. -/
theorem RadixTreeNodePtr.Holds.nodup_entries (h : t.Holds kvs) : (t.entries.map Prod.fst).Nodup := by
  induction t generalizing kvs with
  | null => exact List.nodup_nil
  | node isEmpty key child next value ihc ihn =>
    obtain ⟨hnode, hchild, hnext⟩ := h
    have hbelow : (child.entries.map fun kv => (key ++ kv.1, kv.2)).map Prod.fst =
        (child.entries.map Prod.fst).map (key ++ ·) := by
      simp only [List.map_map]
      rfl
    have hself : key ∉ (child.entries.map Prod.fst).map (key ++ ·) := by
      intro hmem
      obtain ⟨k, hk, heq⟩ := List.mem_map.mp hmem
      obtain ⟨⟨k, v⟩, hmem, rfl⟩ := List.mem_map.mp hk
      have hset := hchild.mem_entries_iff.mp hmem
      have hnil : k = [] := List.append_right_eq_self.mp heq
      rw [hnil, lastSet_behind_nil] at hset
      cases hset
    -- the keys in the siblings begin with other bytes
    have hother {k : Bytes} (hk : k ∈ next.entries.map Prod.fst) : ¬ key <+: k := by
      simp only [List.mem_map, Prod.exists, exists_and_right, exists_eq_right] at hk
      obtain ⟨v, hmem⟩ := hk
      rintro ⟨u, rfl⟩
      have hset := hnext.mem_entries_iff.mp hmem
      rw [lastSet_others_of_eq (List.head?_append_of_ne_nil _ hnode.nonempty)] at hset
      cases hset
    rw [entries, List.map_append, List.map_append, hbelow, List.nodup_append', List.nodup_append']
    refine ⟨⟨?_, (ihc hchild).map (List.append_right_injective key), ?_⟩, ihn hnext, ?_⟩
    · cases isEmpty <;> simp
    · cases isEmpty
      · simpa using hself
      · simp
    · rintro k hk hnext
      refine hother hnext ?_
      obtain hk | hk := List.mem_append.mp hk
      · cases isEmpty
        · simp at hk
          rw [hk]
        · simp at hk
      · obtain ⟨k', -, rfl⟩ := List.mem_map.mp hk
        exact List.prefix_append key k'

namespace RadixTree

/-- **The representation invariant of the tree**, after any settings of keys that are not empty: the nodes have
the shape of `Shaped`, and those that are not empty spell the keys that were set, each once and with the value
set last for it. -/
theorem shape_setAll (kvs : List (Bytes × Value)) (hkvs : ∀ kv ∈ kvs, kv.1 ≠ []) :
    ∃ t : RadixTree Value, new.setAll kvs = .ok t ∧ t.root_.Shaped ∧ (t.root_.entries.map Prod.fst).Nodup ∧
      (∀ k, k ∈ t.root_.entries.map Prod.fst ↔ k ∈ kvs.map Prod.fst) ∧
        ∀ k v, (k, v) ∈ t.root_.entries ↔ lastSet kvs k = some v := by
  obtain ⟨t, ht, hholds, -⟩ := holds_setAll hkvs
  refine ⟨t, ht, hholds.shaped, hholds.nodup_entries, fun k => ?_, fun k v => hholds.mem_entries_iff⟩
  simp only [List.mem_map, Prod.exists, exists_and_right, exists_eq_right, hholds.mem_entries_iff]
  exact lastSet_isSome_iff

/-- Keys with a `*` between, which make a node that is empty. -/
theorem shape_setAll_sample : ∃ t : RadixTree ℕ,
    new.setAll [(bytes "a*b", 0), (bytes "a*c", 1), (bytes "b", 2), (bytes "a*b", 3)] = .ok t ∧ t.root_.Shaped ∧
      (t.root_.entries.map Prod.fst).Nodup ∧
        (∀ k, k ∈ t.root_.entries.map Prod.fst ↔
          k ∈ [(bytes "a*b", 0), (bytes "a*c", 1), (bytes "b", 2), (bytes "a*b", 3)].map Prod.fst) ∧
          ∀ k v, (k, v) ∈ t.root_.entries ↔
            lastSet [(bytes "a*b", 0), (bytes "a*c", 1), (bytes "b", 2), (bytes "a*b", 3)] k = some v :=
  shape_setAll _ (by decide)

end RadixTree

end UvCpp.Http
