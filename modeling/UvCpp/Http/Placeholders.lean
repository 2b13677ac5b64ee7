import UvCpp.Http.Wildcards

/-!
# Nodes that hold no key

A node that was made by a split holds no key, but still the value of the node that was split. Where the
search ends behind the whole key of a node, it looks whether the node is empty; where it ends at a `*`, it
does not. So a value that was set for another key is found if a node that ends with `*` is empty, which
takes keys that go on behind a `*`.

Which nodes there are, and where a search ends at a `*`, can be told from the settings (`NodeAt`, `Cuts`).
`takenFrom_iff` is when no value is taken from an empty node.
-/

namespace UvCpp.Http

open UvCpp.Cpp UvCpp.Systems RadixTree

variable {Value : Type} {kvs : List (Bytes × Value)} {p u x : Bytes}

/-- `getNode` again: with the value it finds, whether the node it takes it from is empty. -/
def RadixTreeNodePtr.takenFrom : RadixTreeNodePtr Value → Bytes → Option (Bool × Value)
  | null, _ => none
  | node isEmpty nodeKey child next nodeValue, key =>
    let commonLength := GetCommomStringLength nodeKey key
    if commonLength = usub nodeKey.length 1 ∧ nodeKey.getLast? = some WildCard then some (isEmpty, nodeValue)
    else if commonLength = 0 then takenFrom next key
    else if commonLength < nodeKey.length then none
    else if commonLength = key.length then
      if isEmpty then none else some (isEmpty, nodeValue)
    else takenFrom child (key.drop commonLength)

open RadixTreeNodePtr

theorem getNode_eq_takenFrom {t : RadixTreeNodePtr Value} (ht : t ≠ .null) (key : Bytes) :
    getNode t key = .ok ((t.takenFrom key).map Prod.snd) := by
  induction t generalizing key with
  | null => exact absurd rfl ht
  | node isEmpty nodeKey child next nodeValue ihc ihn =>
    have hr := common_le_right nodeKey key
    rw [getNode, takenFrom]
    generalize GetCommomStringLength nodeKey key = n at *
    split_ifs with hwild h0 hnext hlt hk he hchild
    · rfl
    · cases next with
      | null => rfl
      | node => simp at hnext
    · cases next with
      | null => simp at hnext
      | node => exact ihn (by simp) key
    · rfl
    · rfl
    · rfl
    · cases child with
      | null => rfl
      | node => simp at hchild
    · have hsub : substr key n (usub key.length n) = .ok (key.drop n) := by
        rw [substr, if_pos hr, usub_of_le hr, List.take_of_length_le (by simp)]
      rw [hsub, Exec.ok_bind]
      cases child with
      | null => simp at hchild
      | node => exact ihc (by simp) _

/-! ### Where a search ends at a wildcard -/

/-- Two keys that were set part behind `p`. -/
def PartsAt (kvs : List (Bytes × Value)) (p : Bytes) : Prop :=
  ∃ a b : UInt8, a ≠ b ∧ (∃ kv ∈ kvs, p ++ [a] <+: kv.1) ∧ ∃ kv ∈ kvs, p ++ [b] <+: kv.1

/-- The keys on the path to some node, put together, are `p`: it was set, or two keys part behind it. -/
def NodeAt (kvs : List (Bytes × Value)) (p : Bytes) : Prop := (∃ v, (p, v) ∈ kvs) ∨ PartsAt kvs p

/-- The search for `x` can end at the node of `u*`: the first key that begins with `u*` was set before all that
begin with `u` and the next byte of `x`; or `x` is `u`, and all keys that begin with it go on with `*`. -/
def Cuts (kvs : List (Bytes × Value)) (x u : Bytes) : Prop :=
  NodeAt kvs (u ++ [WildCard]) ∧
    ((∃ c t, x = u ++ c :: t ∧ c ≠ WildCard ∧ begun (u ++ [WildCard]) (u ++ [c]) kvs) ∨
      x = u ∧ ∀ kv ∈ kvs, u <+: kv.1 → u ++ [WildCard] <+: kv.1)

/-- It ends there, and not before. -/
def FirstCut (kvs : List (Bytes × Value)) (x u : Bytes) : Prop :=
  Cuts kvs x u ∧ ∀ w, Cuts kvs x w → u.length ≤ w.length

/-- It ends at a node whose key was not set. -/
def Stale (kvs : List (Bytes × Value)) (x : Bytes) : Prop :=
  ∃ u, FirstCut kvs x u ∧ lastSet kvs (u ++ [WildCard]) = none

theorem NodeAt.exists_isPrefix (h : NodeAt kvs p) : ∃ kv ∈ kvs, p <+: kv.1 := by
  obtain ⟨v, hmem⟩ | ⟨a, -, -, ⟨kv, hkv, hpre⟩, -⟩ := h
  · exact ⟨_, hmem, List.prefix_rfl⟩
  · exact ⟨kv, hkv, (List.prefix_append p [a]).trans hpre⟩

theorem Cuts.isPrefix (h : Cuts kvs x u) : u <+: x := by
  obtain ⟨-, ⟨c, t, rfl, -⟩ | ⟨rfl, -⟩⟩ := h
  · exact List.prefix_append u (c :: t)
  · exact List.prefix_rfl

theorem not_stale_of_not_cuts (h : ∀ u, ¬ Cuts kvs x u) : ¬ Stale kvs x := fun ⟨u, hu, _⟩ => h u hu.1

theorem FirstCut.unique (h : FirstCut kvs x u) {w : Bytes} (h' : FirstCut kvs x w) : u = w := by
  have hlen : u.length = w.length := le_antisymm (h.2 w h'.1) (h'.2 u h.1)
  exact (List.prefix_of_prefix_length_le h.1.isPrefix h'.1.isPrefix hlen.le).eq_of_length hlen

/-! ### Below a prefix -/

theorem partsAt_below_iff (p q : Bytes) : PartsAt (below p kvs) q ↔ PartsAt kvs (p ++ q) := by
  have hmem (x : UInt8) : (∃ kv ∈ below p kvs, q ++ [x] <+: kv.1) ↔ ∃ kv ∈ kvs, p ++ q ++ [x] <+: kv.1 := by
    constructor
    · rintro ⟨⟨_, v⟩, hkv, t, rfl⟩
      exact ⟨_, mem_below_iff.mp hkv, t, by simp⟩
    · rintro ⟨⟨_, v⟩, hkv, t, rfl⟩
      refine ⟨(q ++ [x] ++ t, v), mem_below_iff.mpr ?_, List.prefix_append _ t⟩
      simpa using hkv
  simp only [PartsAt, hmem]

theorem nodeAt_below_iff (p q : Bytes) : NodeAt (below p kvs) q ↔ NodeAt kvs (p ++ q) := by
  simp only [NodeAt, partsAt_below_iff, mem_below_iff]

theorem cuts_below_iff (p x u : Bytes) : Cuts (below p kvs) x u ↔ Cuts kvs (p ++ x) (p ++ u) := by
  have hall : (∀ kv ∈ below p kvs, u <+: kv.1 → u ++ [WildCard] <+: kv.1) ↔
      ∀ kv ∈ kvs, p ++ u <+: kv.1 → p ++ u ++ [WildCard] <+: kv.1 := by
    rw [forall_mem_below_iff (P := fun k => u <+: k → u ++ [WildCard] <+: k)]
    constructor
    · rintro hall kv hkv ⟨t, ht⟩
      have hpre := hall kv hkv (u ++ t) (by rw [← ht, List.append_assoc]) (List.prefix_append u t)
      rw [← ht, List.append_assoc p u t, List.append_assoc, List.prefix_append_right_inj]
      exact hpre
    · rintro hall kv hkv k hk hpre
      have hpre' := hall kv hkv (by rw [hk, List.prefix_append_right_inj]; exact hpre)
      rwa [hk, List.append_assoc, List.prefix_append_right_inj] at hpre'
  simp only [Cuts, nodeAt_below_iff, begun_below, hall, List.append_assoc, List.append_cancel_left_eq]

/-- Along a node a search does not end; behind it, it goes on with the rest. -/
theorem MadeBy.cuts_append_iff {isEmpty : Bool} {nodeValue : Value} {a b : Bytes}
    (h : MadeBy isEmpty (p ++ a) nodeValue kvs) : Cuts kvs (p ++ b) u ↔
      ∃ u', u = p ++ u' ∧ Cuts (below p kvs) b u' := by
  constructor
  · intro hcuts
    obtain ⟨u', rfl⟩ | ⟨c, p', rfl⟩ : (∃ u', u = p ++ u') ∨ ∃ c p', p = u ++ c :: p' := by
      obtain ⟨t, ht⟩ := hcuts.isPrefix
      obtain ⟨u', rfl, -⟩ | ⟨p', rfl, -⟩ := List.append_eq_append_iff.mp ht.symm
      · exact .inl ⟨u', rfl⟩
      · cases p' with
        | nil => exact .inl ⟨[], by simp⟩
        | cons c p' => exact .inr ⟨c, p', rfl⟩
    · exact ⟨u', rfl, (cuts_below_iff p b u').mpr hcuts⟩
    · obtain ⟨-, ⟨d, t, hx, hd, hbegun⟩ | ⟨hx, -⟩⟩ := hcuts
      · obtain rfl : c = d := by
          rw [List.append_assoc, List.append_cancel_left_eq] at hx
          exact (List.cons.inj hx).1
        -- the first key of all goes on with the node's
        obtain ⟨kv, hfirst, hhead⟩ := h.first
        obtain ⟨kvs, rfl⟩ := List.head?_eq_some_iff.mp hfirst
        have hgo : u ++ [c] <+: kv.1 := by
          refine List.IsPrefix.trans ?_ (h.shared kv List.mem_cons_self hhead)
          exact ⟨p' ++ a, by simp⟩
        simp only [begun, hgo, not_true_eq_false, decide_false, Bool.false_and, Bool.or_false,
          decide_eq_true_eq] at hbegun
        have heq := List.prefix_of_prefix_length_le hbegun hgo (by simp)
        rw [List.prefix_append_right_inj, List.cons_prefix_cons] at heq
        exact absurd heq.1.symm hd
      · simp at hx
  · rintro ⟨u', rfl, hcuts⟩
    exact (cuts_below_iff p b u').mp hcuts

theorem stale_of_cuts_iff {kvs' : List (Bytes × Value)} {y : Bytes} (h : ∀ u, Cuts kvs x u ↔
    ∃ u', u = p ++ u' ∧ Cuts kvs' y u') (hlast : ∀ u, Cuts kvs' y u →
      lastSet kvs' (u ++ [WildCard]) = lastSet kvs (p ++ u ++ [WildCard])) : Stale kvs x ↔ Stale kvs' y := by
  have hcuts (u : Bytes) : Cuts kvs x (p ++ u) ↔ Cuts kvs' y u := by simp [h]
  have hfirst (u : Bytes) : FirstCut kvs x (p ++ u) ↔ FirstCut kvs' y u := by
    refine and_congr (hcuts u) ⟨fun hmin w hw => ?_, fun hmin w hw => ?_⟩
    · simpa using hmin (p ++ w) ((hcuts w).mpr hw)
    · obtain ⟨w, rfl, hw'⟩ := (h w).mp hw
      simpa using hmin w hw'
  constructor
  · rintro ⟨u, hu, hset⟩
    obtain ⟨u, rfl, hu'⟩ := (h u).mp hu.1
    exact ⟨u, (hfirst u).mp hu, (hlast u hu').trans hset⟩
  · rintro ⟨u, hu, hset⟩
    exact ⟨p ++ u, (hfirst u).mpr hu, (hlast u hu.1).symm.trans hset⟩

/-- Behind the part of its key that a search shares with a node. -/
theorem MadeBy.stale_append_iff {isEmpty : Bool} {nodeValue : Value} {a : Bytes}
    (h : MadeBy isEmpty (p ++ a) nodeValue kvs) (b : Bytes) : Stale kvs (p ++ b) ↔ Stale (below p kvs) b := by
  refine stale_of_cuts_iff (fun u => h.cuts_append_iff) fun u _ => ?_
  rw [lastSet_below, List.append_assoc]

/-! ### Settings that do not matter -/

/-- Only keys that begin as the query does matter, and those that begin with `*`. -/
theorem cuts_filter_iff {P : Bytes × Value → Bool} (h : ∀ kv : Bytes × Value, u ++ [WildCard] <+: kv.1 ∨
    kv.1.head? = x.head? → P kv = true) (hx : x ≠ []) : Cuts (kvs.filter P) x u ↔ Cuts kvs x u := by
  have hkeep {k : Bytes} (hk : u ++ [WildCard] <+: k) :
      (∃ kv ∈ kvs.filter P, k <+: kv.1) ↔ ∃ kv ∈ kvs, k <+: kv.1 := by
    refine exists_congr fun kv => ?_
    rw [List.mem_filter, and_right_comm, and_iff_left_iff_imp]
    exact fun hkv => h kv (.inl (hk.trans hkv.2))
  have hnode : NodeAt (kvs.filter P) (u ++ [WildCard]) ↔ NodeAt kvs (u ++ [WildCard]) := by
    refine or_congr (exists_congr fun v => ?_) ?_
    · rw [List.mem_filter, and_iff_left (h _ (.inl List.prefix_rfl))]
    · simp only [PartsAt, hkeep (List.prefix_append _ _)]
  refine and_congr hnode (or_congr ?_ ?_)
  · refine exists_congr fun c => exists_congr fun t => and_congr_right fun hxu => and_congr_right fun _ => ?_
    rw [begun_filter]
    rintro kv - (hpre | ⟨t', ht'⟩)
    · exact h kv (.inl hpre)
    · refine h kv (.inr ?_)
      rw [← ht', hxu]
      cases u <;> rfl
  · refine and_congr_right fun hxu => ?_
    subst hxu
    constructor
    · rintro hall kv hkv hpre
      obtain ⟨t, ht⟩ := hpre
      have hP := h kv (.inr (by rw [← ht, List.head?_append_of_ne_nil _ hx]))
      exact hall kv (List.mem_filter.mpr ⟨hkv, hP⟩) ⟨t, ht⟩
    · exact fun hall kv hkv => hall kv (List.mem_of_mem_filter hkv)

theorem stale_filter_iff {P : Bytes × Value → Bool} (hcuts : ∀ u, Cuts (kvs.filter P) x u ↔ Cuts kvs x u)
    (hP : ∀ u, Cuts kvs x u → ∀ v, P (u ++ [WildCard], v) = true) : Stale (kvs.filter P) x ↔ Stale kvs x := by
  refine stale_of_cuts_iff (p := []) (fun u => ?_) fun u hu => ?_
  · simp only [List.nil_append, exists_eq_left', hcuts]
  · exact (lastSet_filter (hP u hu)).symm

/-- Behind the key of a node its own setting does not matter. -/
theorem stale_behind_iff (hx : x ≠ []) : Stale (behind p kvs) x ↔ Stale (below p kvs) x := by
  refine stale_filter_iff (fun u => cuts_filter_iff (fun kv hkv => ?_) hx) fun u _ v => by simp
  obtain ⟨c, x, rfl⟩ := List.exists_cons_of_ne_nil hx
  rw [decide_eq_true_eq]
  rintro hnil
  obtain hpre | hhead := hkv
  · rw [hnil] at hpre
    exact absurd (List.prefix_nil.mp hpre) (by simp)
  · rw [hnil] at hhead
    cases hhead

/-- Where all keys go on in the same way there is no node. -/
theorem not_nodeAt_of_shared {e : UInt8} (h : ∀ kv ∈ kvs, p <+: kv.1 → p ++ [e] <+: kv.1) : ¬ NodeAt kvs p := by
  have hsame {x : UInt8} (hx : ∃ kv ∈ kvs, p ++ [x] <+: kv.1) : x = e := by
    obtain ⟨kv, hkv, hpre⟩ := hx
    have heq := List.prefix_of_prefix_length_le hpre (h kv hkv ((List.prefix_append p [x]).trans hpre)) (by simp)
    rw [List.prefix_append_right_inj, List.cons_prefix_cons] at heq
    exact heq.1
  rintro (⟨v, hmem⟩ | ⟨a, b, hab, ha, hb⟩)
  · have hlen := (h _ hmem List.prefix_rfl).length_le
    simp at hlen
  · exact hab ((hsame ha).trans (hsame hb).symm)

variable {isEmpty : Bool} {nodeValue : Value}

/-- The settings of a node that begins with another byte do not matter. -/
theorem MadeBy.stale_others_iff {c d : UInt8} {a : Bytes} (h : MadeBy isEmpty (d :: a) nodeValue kvs)
    (hne : d :: a ≠ [WildCard]) (hc : c ≠ d) : Stale (others (d :: a) kvs) (c :: x) ↔ Stale kvs (c :: x) := by
  -- at a node that begins with `*` and goes on, the search does not end
  have hstar : d = WildCard → ¬ NodeAt kvs [WildCard] := by
    rintro rfl
    obtain ⟨e, a, rfl⟩ := List.exists_cons_of_ne_nil (show a ≠ [] by simpa using hne)
    refine not_nodeAt_of_shared (p := [WildCard]) (e := e) fun kv hkv hpre => ?_
    obtain ⟨t, ht⟩ := hpre
    refine List.IsPrefix.trans ?_ (h.shared kv hkv (by rw [← ht]; rfl))
    exact ⟨a, rfl⟩
  have hstar' : d = WildCard → ¬ NodeAt (others (d :: a) kvs) [WildCard] := by
    rintro rfl hnode
    obtain ⟨kv, hkv, t, ht⟩ := hnode.exists_isPrefix
    rw [others, List.mem_filter, decide_eq_true_eq] at hkv
    exact hkv.2 (by rw [← ht]; rfl)
  have hcuts (u : Bytes) : Cuts (others (d :: a) kvs) (c :: x) u ↔ Cuts kvs (c :: x) u := by
    by_cases hu : u <+: c :: x
    · by_cases hd : u = [] ∧ d = WildCard
      · obtain ⟨rfl, hd⟩ := hd
        exact iff_of_false (fun hcut => hstar' hd hcut.1) fun hcut => hstar hd hcut.1
      · refine cuts_filter_iff (fun kv hkv => decide_eq_true ?_) (List.cons_ne_nil c x)
        obtain ⟨t, ht⟩ | hhead := hkv
        · cases u with
          | nil =>
            rw [← ht]
            simpa [eq_comm] using hd
          | cons b u =>
            rw [(List.cons_prefix_cons.mp hu).1] at ht
            rw [← ht]
            simpa using hc
        · rw [hhead]
          simpa using hc
    · exact iff_of_false (fun hcut => hu hcut.isPrefix) fun hcut => hu hcut.isPrefix
  refine stale_filter_iff hcuts fun u hu v => decide_eq_true ?_
  cases u with
  | nil => simpa [eq_comm] using fun hd => hstar hd hu.1
  | cons b u =>
    rw [(List.cons_prefix_cons.mp hu.isPrefix).1]
    simpa using hc

/-! ### The ways a search ends -/

/-- At a node that ends with `*` the search ends, and the node is empty if its key was not set. -/
theorem MadeBy.stale_wildCard_iff {b : Bytes} (h : MadeBy isEmpty (p ++ [WildCard]) nodeValue kvs)
    (hb : b.head? ≠ some WildCard) (hne : p ++ b ≠ []) : Stale kvs (p ++ b) ↔ isEmpty = true := by
  have hnode : NodeAt kvs (p ++ [WildCard]) := by
    cases isEmpty with
    | false => exact .inl ⟨_, mem_of_lastSet (h.value rfl)⟩
    | true => exact .inr (h.parts rfl)
  have hcut : FirstCut kvs (p ++ b) p := by
    refine ⟨⟨hnode, ?_⟩, fun w hw => ?_⟩
    · cases b with
      | nil =>
        refine .inr ⟨List.append_nil p, fun kv hkv hpre => ?_⟩
        obtain ⟨t, ht⟩ := hpre
        have hp : p ≠ [] := by simpa using hne
        refine h.shared kv hkv ?_
        rw [← ht, List.head?_append_of_ne_nil _ hp, List.head?_append_of_ne_nil _ hp]
      | cons c t =>
        refine .inl ⟨c, t, rfl, by simpa using hb, ?_⟩
        obtain ⟨kv, hfirst, hhead⟩ := h.first
        obtain ⟨kvs, rfl⟩ := List.head?_eq_some_iff.mp hfirst
        simp [begun, h.shared kv List.mem_cons_self hhead]
    · obtain ⟨u', rfl, -⟩ := h.cuts_append_iff.mp hw
      simp
  constructor
  · rintro ⟨u, hu, hset⟩
    rw [hu.unique hcut] at hset
    rw [← Bool.not_eq_false]
    intro he
    rw [h.value he] at hset
    cases hset
  · intro he
    exact ⟨p, hcut, h.unset he⟩

/-- A search that leaves the key of a node ends nowhere. -/
theorem MadeBy.not_stale_of_parted {a b : Bytes} {d : UInt8} (hp : p ≠ [])
    (h : MadeBy isEmpty (p ++ d :: a) nodeValue kvs) (hne : d :: a ≠ [WildCard]) (hb : b.head? ≠ some d) :
    ¬ Stale kvs (p ++ b) := by
  have hall := h.isPrefix_of_mem_below hp
  rw [h.stale_append_iff]
  refine not_stale_of_not_cuts fun u hu => ?_
  obtain ⟨kv, hkv, t, ht⟩ := hu.1.exists_isPrefix
  obtain ⟨t', ht'⟩ := hall kv hkv
  rw [← ht'] at ht
  cases u with
  | nil =>
    obtain rfl : WildCard = d := (List.cons.inj ht).1
    obtain ⟨e, a, rfl⟩ := List.exists_cons_of_ne_nil (show a ≠ [] by simpa using hne)
    refine not_nodeAt_of_shared (e := e) (fun kv hkv _ => ?_) hu.1
    refine List.IsPrefix.trans ?_ (hall kv hkv)
    exact ⟨a, rfl⟩
  | cons c u =>
    obtain rfl : c = d := (List.cons.inj ht).1
    obtain ⟨t, rfl⟩ := hu.isPrefix
    exact hb rfl

/-- Nor does one that ends with the key of a node. -/
theorem MadeBy.not_stale_self (h : MadeBy isEmpty p nodeValue kvs) : ¬ Stale kvs p := by
  have h' : MadeBy isEmpty (p ++ []) nodeValue kvs := by rwa [List.append_nil]
  have hiff := h'.stale_append_iff []
  rw [List.append_nil] at hiff
  rw [hiff]
  refine not_stale_of_not_cuts fun u hu => ?_
  obtain rfl : u = [] := List.prefix_nil.mp hu.isPrefix
  obtain ⟨-, ⟨c, t, hx, -⟩ | ⟨-, hall⟩⟩ := hu
  · cases hx
  have hstar {k : Bytes} {v : Value} (hkv : (p ++ k, v) ∈ kvs) : k.head? = some WildCard := by
    obtain ⟨t, ht⟩ := hall (k, v) (mem_below_iff.mpr hkv) List.nil_prefix
    obtain rfl : WildCard :: t = k := ht
    rfl
  cases isEmpty with
  | false =>
    have hself := mem_of_lastSet (h'.value rfl)
    cases hstar hself
  | true =>
    obtain ⟨a, b, hab, ⟨⟨_, v⟩, hkv, t, rfl⟩, ⟨_, v'⟩, hkv', t', rfl⟩ := h.parts rfl
    rw [List.append_assoc] at hkv hkv'
    exact hab (Option.some.inj ((hstar hkv).trans (hstar hkv').symm))

/-- **When a search takes a value from an empty node**: it ends at a node whose key was not set. -/
theorem RadixTreeNodePtr.Holds.takenFrom_empty_iff {t : RadixTreeNodePtr Value} (h : t.Holds kvs) (hx : x ≠ []) :
    (∃ v, t.takenFrom x = some (true, v)) ↔ Stale kvs x := by
  induction t generalizing kvs x with
  | null =>
    obtain rfl : kvs = [] := h
    refine iff_of_false nofun (not_stale_of_not_cuts fun u hu => ?_)
    obtain ⟨kv, hkv, -⟩ := hu.1.exists_isPrefix
    cases hkv
  | node isEmpty nodeKey child next nodeValue ihc ihn =>
    obtain ⟨hnode, hchild, hnext⟩ := h
    obtain ⟨p, a, b, rfl, rfl, hlen, hparted⟩ := exists_common nodeKey x
    rw [takenFrom]
    simp only [hlen, wildCard_test_iff (List.length_pos_of_ne_nil hnode.nonempty)]
    by_cases ha : a = [WildCard]
    · subst ha
      rw [if_pos rfl, hnode.stale_wildCard_iff (by simpa using hparted) hx]
      simp
    rw [if_neg ha]
    by_cases hp : p = []
    · -- another byte
      subst hp
      obtain ⟨c, x, rfl⟩ := List.exists_cons_of_ne_nil hx
      obtain ⟨d, a, rfl⟩ := List.exists_cons_of_ne_nil (show a ≠ [] from hnode.nonempty)
      have hc : c ≠ d := by simpa [eq_comm] using hparted
      rw [if_pos List.length_nil, ihn hnext (by simp)]
      exact MadeBy.stale_others_iff hnode ha hc
    rw [if_neg (by simpa using hp)]
    by_cases ha' : a = []
    · -- the whole key of the node
      subst ha'
      rw [if_neg (by simp)]
      by_cases hb : b = []
      · subst hb
        rw [if_pos (by simp)]
        refine iff_of_false ?_ hnode.not_stale_self
        cases isEmpty <;> simp
      · have hne : ¬ p.length = (p ++ b).length := by simpa using hb
        rw [if_neg hne, hnode.stale_append_iff, ← stale_behind_iff hb, List.drop_left]
        rw [List.append_nil] at hchild
        exact ihc hchild hb
    · -- the search leaves the node
      obtain ⟨d, a, rfl⟩ := List.exists_cons_of_ne_nil ha'
      rw [if_pos (by simp)]
      exact iff_of_false nofun (hnode.not_stale_of_parted hp ha (by simpa using hparted))

/-- If `*` comes last or not at all, the key of a node that ends with it was set. -/
theorem Cuts.mem_of_routable (h : Cuts kvs x u) (hkvs : ∀ kv ∈ kvs, Routable kv.1) :
    ∃ v, (u ++ [WildCard], v) ∈ kvs := by
  refine h.1.resolve_right ?_
  rintro ⟨a, -, -, ⟨kv, hkv, hpre⟩, -⟩
  have heq := (hkvs kv hkv).eq_of_isPrefix ((List.prefix_append _ [a]).trans hpre)
  have hlen := hpre.length_le
  rw [heq] at hlen
  simp at hlen

namespace RadixTree

/-- **When no value is taken from an empty node**: where the search first ends at a node that ends with `*`, the
key of that node was set. -/
theorem takenFrom_iff (kvs : List (Bytes × Value)) (hne : kvs ≠ []) (hkvs : ∀ kv ∈ kvs, kv.1 ≠ []) (x : Bytes)
    (hx : x ≠ []) : ∃ t : RadixTree Value, new.setAll kvs = .ok t ∧
      t.get x = .ok ((t.root_.takenFrom x).map Prod.snd) ∧
        ((∀ isEmpty v, t.root_.takenFrom x = some (isEmpty, v) → isEmpty = false) ↔
          ∀ u, FirstCut kvs x u → ∃ v, (u ++ [WildCard], v) ∈ kvs) := by
  obtain ⟨t, ht, hholds, hroot⟩ := holds_setAll hkvs
  refine ⟨t, ht, getNode_eq_takenFrom (hroot hne) x, ?_⟩
  have hempty : (∀ isEmpty v, t.root_.takenFrom x = some (isEmpty, v) → isEmpty = false) ↔ ¬ Stale kvs x := by
    rw [← hholds.takenFrom_empty_iff hx]
    simp [Bool.forall_bool]
  rw [hempty, Stale, not_exists]
  refine forall_congr' fun u => ?_
  rw [← lastSet_isSome_iff, ← Option.ne_none_iff_exists', not_and]

/-- Patterns with `*` at their end. -/
theorem takenFrom_iff_sample : ∃ t : RadixTree ℕ, new.setAll [(bytes "/some*", 0), (bytes "/test", 1)] = .ok t ∧
    ∀ isEmpty v, t.root_.takenFrom (bytes "/something") = some (isEmpty, v) → isEmpty = false := by
  obtain ⟨t, ht, -, hiff⟩ := takenFrom_iff [(bytes "/some*", 0), (bytes "/test", 1)] (by simp) (by decide)
    (bytes "/something") (by decide)
  exact ⟨t, ht, hiff.mpr fun u hu => hu.1.mem_of_routable (by decide)⟩

/-- **A value that was set for another key is found**: two keys part behind `a*`, and a path that begins with `a`
is found there. -/
theorem not_takenFrom : ∃ t : RadixTree ℕ, new.setAll [(bytes "a*b", 0), (bytes "a*c", 1)] = .ok t ∧
    t.get (bytes "ax") = .ok (some 0) ∧ t.root_.takenFrom (bytes "ax") = some (true, 0) := ⟨_, rfl, rfl, rfl⟩

end RadixTree

end UvCpp.Http
