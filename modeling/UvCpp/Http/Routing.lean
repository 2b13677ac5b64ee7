import UvCpp.Systems.Prefixes
import UvCpp.Http.RadixTree

/-!
# What a radix tree knows

A radix tree that has been made by a sequence of settings knows more of them than a dictionary: the
siblings stand in the order in which keys with their first bytes were set first. `Holds` says so of
a tree, and a setting keeps it (`Holds.insert`), whatever the keys are.

A search goes through the siblings in that order and stops at the first that is `*` or begins with
the byte searched for. So what it finds can be told from the settings alone, byte by byte, without
the tree: `route`. For keys in which `*` comes last or not at all, `getNode` finds just that
(`Holds.getNode_eq`).
-/

namespace UvCpp.Http

open UvCpp.Cpp UvCpp.Systems

variable {Value : Type}

/-! ### The last setting of a key -/

namespace RadixTree

theorem lastSet_below (p k : Bytes) (kvs : List (Bytes × Value)) :
    lastSet (below p kvs) k = lastSet kvs (p ++ k) := by
  induction kvs using List.reverseRecOn with
  | nil => rfl
  | append_singleton kvs kv ih =>
    obtain ⟨key, v⟩ := kv
    rw [below_append, lastSet_concat]
    by_cases hp : p <+: key
    · obtain ⟨t, rfl⟩ := hp
      rw [below_cons_of_append, below_nil, lastSet_concat, ih]
      simp
    · have hne : p ++ k ≠ key := by
        rintro rfl
        exact hp (List.prefix_append p k)
      rw [below_cons_of_not_isPrefix hp, below_nil, List.append_nil, ih, if_neg hne]

theorem lastSet_eq_none_iff {kvs : List (Bytes × Value)} {k : Bytes} :
    lastSet kvs k = none ↔ ∀ kv ∈ kvs, kv.1 ≠ k := by
  induction kvs using List.reverseRecOn with
  | nil => simp [lastSet]
  | append_singleton kvs kv ih =>
    rw [lastSet_concat]
    simp only [List.forall_mem_append, List.forall_mem_singleton]
    split
    · next heq => simp [heq]
    · next hne => simp [ih, Ne.symm hne]

theorem mem_of_lastSet {kvs : List (Bytes × Value)} {k : Bytes} {v : Value} (h : lastSet kvs k = some v) :
    (k, v) ∈ kvs := by
  induction kvs using List.reverseRecOn with
  | nil => cases h
  | append_singleton kvs kv ih =>
    rw [lastSet_concat] at h
    split at h
    · next heq =>
      rw [Option.some.injEq] at h
      subst heq h
      simp
    · exact List.mem_append_left _ (ih h)

/-- Settings of other keys do not matter. -/
theorem lastSet_filter {kvs : List (Bytes × Value)} {k : Bytes} {P : Bytes × Value → Bool}
    (h : ∀ v, P (k, v) = true) : lastSet (kvs.filter P) k = lastSet kvs k := by
  induction kvs using List.reverseRecOn with
  | nil => rfl
  | append_singleton kvs kv ih =>
    obtain ⟨key, v⟩ := kv
    rw [List.filter_append, lastSet_concat]
    by_cases hP : P (key, v) = true
    · rw [List.filter_cons_of_pos hP, List.filter_nil, lastSet_concat, ih]
    · have hne : k ≠ key := by
        rintro rfl
        exact hP (h v)
      rw [List.filter_cons_of_neg hP, List.filter_nil, List.append_nil, ih, if_neg hne]

end RadixTree

open RadixTree

/-! ### What a tree holds -/

/-- What two strings share, and what comes behind it. -/
theorem exists_common (s t : Bytes) : ∃ p a b, s = p ++ a ∧ t = p ++ b ∧
    GetCommomStringLength s t = p.length ∧ ∀ c ∈ a.head?, c ∉ b.head? := by
  fun_induction GetCommomStringLength s t with
  | case1 s c t ih =>
    obtain ⟨p, a, b, rfl, rfl, hlen, hne⟩ := ih
    exact ⟨c :: p, a, b, rfl, rfl, by rw [hlen, List.length_cons], hne⟩
  | case2 c s d t hcd =>
    refine ⟨[], c :: s, d :: t, rfl, rfl, rfl, ?_⟩
    simpa using Ne.symm hcd
  | case3 s t h =>
    refine ⟨[], s, t, rfl, rfl, rfl, ?_⟩
    cases s with
    | nil => simp
    | cons c s =>
      cases t with
      | nil => simp
      | cons d t => exact absurd rfl (h c s d t rfl)

/-- The settings below a node: of longer keys. -/
def behind (key : Bytes) (kvs : List (Bytes × Value)) : List (Bytes × Value) :=
  (below key kvs).filter fun kv => kv.1 ≠ []

/-- The settings of the siblings behind a node. -/
def others (key : Bytes) (kvs : List (Bytes × Value)) : List (Bytes × Value) :=
  kvs.filter fun kv => kv.1.head? ≠ key.head?

/-- What a node says of the settings it was made by, it and its siblings. -/
structure MadeBy (isEmpty : Bool) (key : Bytes) (value : Value) (kvs : List (Bytes × Value)) : Prop where
  /-- It has a key. -/
  nonempty : key ≠ []
  /-- The first key that was set begins with its first byte. -/
  first : ∃ kv ∈ kvs.head?, kv.1.head? = key.head?
  /-- All keys that begin with its first byte begin with its key. -/
  shared : ∀ kv ∈ kvs, kv.1.head? = key.head? → key <+: kv.1
  /-- A node that is not empty has the value set last for its key. -/
  value : isEmpty = false → lastSet kvs key = some value
  /-- The key of an empty node was not set. -/
  unset : isEmpty = true → lastSet kvs key = none
  /-- Keys that were set part behind an empty node. -/
  parts : isEmpty = true → ∃ a b : UInt8, a ≠ b ∧ (∃ kv ∈ kvs, key ++ [a] <+: kv.1) ∧
    ∃ kv ∈ kvs, key ++ [b] <+: kv.1

namespace RadixTreeNodePtr

/-- The tree, a node and its siblings, has been made by these settings. -/
def Holds : RadixTreeNodePtr Value → List (Bytes × Value) → Prop
  | null, kvs => kvs = []
  | node isEmpty key child next value, kvs =>
    MadeBy isEmpty key value kvs ∧ child.Holds (behind key kvs) ∧ next.Holds (others key kvs)

end RadixTreeNodePtr

variable {key nodeKey : Bytes} {kvs : List (Bytes × Value)}

theorem behind_concat_append (p k : Bytes) (kvs : List (Bytes × Value)) (v : Value) :
    behind p (kvs ++ [(p ++ k, v)]) = behind p kvs ++ if k = [] then [] else [(k, v)] := by
  rw [behind, below_append, below_cons_of_append, List.filter_append, below_nil]
  split
  · next h => simp [behind, h]
  · next h => simp [behind, h]

theorem behind_concat_of_not_isPrefix (h : ¬ nodeKey <+: key) (kvs : List (Bytes × Value)) (v : Value) :
    behind nodeKey (kvs ++ [(key, v)]) = behind nodeKey kvs := by
  rw [behind, below_append, below_cons_of_not_isPrefix h, below_nil, List.append_nil, behind]

theorem others_concat (kvs : List (Bytes × Value)) (v : Value) :
    others nodeKey (kvs ++ [(key, v)]) =
      others nodeKey kvs ++ if key.head? = nodeKey.head? then [] else [(key, v)] := by
  rw [others, List.filter_append, ← others]
  split
  · next h => simp [h]
  · next h => simp [h]

theorem mem_behind_iff {p k : Bytes} {v : Value} : (k, v) ∈ behind p kvs ↔ (p ++ k, v) ∈ kvs ∧ k ≠ [] := by
  simp [behind, mem_below_iff]

theorem MadeBy.head?_concat {isEmpty : Bool} {nodeValue : Value} (h : MadeBy isEmpty nodeKey nodeValue kvs)
    (kv : Bytes × Value) : (kvs ++ [kv]).head? = kvs.head? := by
  obtain ⟨kv₀, hfirst, -⟩ := h.first
  rw [List.head?_append, hfirst]
  rfl

/-- One more setting, of another key. -/
theorem MadeBy.concat {isEmpty : Bool} {nodeValue : Value} (h : MadeBy isEmpty nodeKey nodeValue kvs)
    (hshared : key.head? = nodeKey.head? → nodeKey <+: key) (hne : nodeKey ≠ key) (value : Value) :
    MadeBy isEmpty nodeKey nodeValue (kvs ++ [(key, value)]) where
  nonempty := h.nonempty
  first := by
    rw [h.head?_concat]
    exact h.first
  shared := by
    simp only [List.forall_mem_append, List.forall_mem_singleton]
    exact ⟨h.shared, hshared⟩
  value he := by rw [lastSet_concat, if_neg hne, h.value he]
  unset he := by rw [lastSet_concat, if_neg hne, h.unset he]
  parts he := by
    obtain ⟨a, b, hab, ⟨kv, hkv, hpre⟩, kv', hkv', hpre'⟩ := h.parts he
    exact ⟨a, b, hab, ⟨kv, List.mem_append_left _ hkv, hpre⟩, kv', List.mem_append_left _ hkv', hpre'⟩

/-- One more setting, of the key of the node. -/
theorem MadeBy.concat_self {isEmpty : Bool} {nodeValue : Value} (h : MadeBy isEmpty nodeKey nodeValue kvs)
    (value : Value) : MadeBy false nodeKey value (kvs ++ [(nodeKey, value)]) where
  nonempty := h.nonempty
  first := by
    rw [h.head?_concat]
    exact h.first
  shared := by
    simp only [List.forall_mem_append, List.forall_mem_singleton]
    exact ⟨h.shared, fun _ => List.prefix_rfl⟩
  value _ := by rw [lastSet_concat, if_pos rfl]
  unset he := by cases he
  parts he := by cases he

/-- The settings below a part of the key of a node are those of the node. -/
theorem MadeBy.isPrefix_of_mem_below {isEmpty : Bool} {nodeValue : Value} {p a : Bytes} (hp : p ≠ [])
    (h : MadeBy isEmpty (p ++ a) nodeValue kvs) : ∀ kv ∈ below p kvs, a <+: kv.1 := by
  rw [forall_mem_below_iff (P := fun k => a <+: k)]
  rintro kv hkv k hk
  have hhead : kv.1.head? = (p ++ a).head? := by
    rw [hk, List.head?_append_of_ne_nil _ hp, List.head?_append_of_ne_nil _ hp]
  have hpre := h.shared kv hkv hhead
  rwa [hk, List.prefix_append_right_inj] at hpre

/-- The first setting of a node is the first one below a part of its key. -/
theorem MadeBy.head?_below {isEmpty : Bool} {nodeValue : Value} {p a : Bytes}
    (h : MadeBy isEmpty (p ++ a) nodeValue kvs) :
    ∃ kv ∈ (below p kvs).head?, a <+: kv.1 := by
  obtain ⟨⟨k, v⟩, hfirst, hhead⟩ := h.first
  obtain ⟨kvs', rfl⟩ := List.head?_eq_some_iff.mp hfirst
  obtain ⟨t, ht⟩ := h.shared (k, v) List.mem_cons_self hhead
  rw [List.append_assoc] at ht
  refine ⟨(a ++ t, v), ?_, List.prefix_append a t⟩
  simp only at ht
  rw [← ht, below_cons_of_append]
  rfl

namespace RadixTreeNodePtr

variable {isEmpty : Bool} {child next next' : RadixTreeNodePtr Value} {nodeValue : Value}

theorem holds_single (hkey : key ≠ []) (value : Value) :
    (node false key null null value).Holds [(key, value)] := by
  have hbehind : behind key [(key, value)] = [] := by
    have h := behind_concat_append key [] [] value
    rwa [List.append_nil] at h
  refine ⟨?_, hbehind, by simp [Holds, others]⟩
  exact {
    nonempty := hkey
    first := ⟨_, rfl, rfl⟩
    shared := by simp
    value := fun _ => by simp [lastSet]
    unset := fun he => by cases he
    parts := fun he => by cases he }

/-- A key that begins with another byte belongs to the siblings. -/
theorem Holds.sibling (h : (node isEmpty nodeKey child next nodeValue).Holds kvs)
    (hhead : key.head? ≠ nodeKey.head?) {value : Value}
    (hnext : next'.Holds (others nodeKey kvs ++ [(key, value)])) :
    (node isEmpty nodeKey child next' nodeValue).Holds (kvs ++ [(key, value)]) := by
  obtain ⟨hnode, hchild, -⟩ := h
  have hne : nodeKey ≠ key := fun heq => hhead (heq ▸ rfl)
  have hpre : ¬ nodeKey <+: key := by
    intro hpre
    obtain ⟨t, rfl⟩ := hpre
    exact hhead (List.head?_append_of_ne_nil _ hnode.nonempty)
  refine ⟨hnode.concat (fun heq => absurd heq hhead) hne value, ?_, ?_⟩
  · rwa [behind_concat_of_not_isPrefix hpre]
  · rwa [others_concat, if_neg hhead]

/-- A longer key belongs to the children. -/
theorem Holds.descend {b : Bytes} (hb : b ≠ []) {value : Value}
    (h : (node isEmpty nodeKey child next nodeValue).Holds kvs) {child' : RadixTreeNodePtr Value}
    (hchild : child'.Holds (behind nodeKey kvs ++ [(b, value)])) :
    (node isEmpty nodeKey child' next nodeValue).Holds (kvs ++ [(nodeKey ++ b, value)]) := by
  obtain ⟨hnode, -, hnext⟩ := h
  have hne : nodeKey ≠ nodeKey ++ b := fun heq => hb (List.self_eq_append_right.mp heq)
  refine ⟨hnode.concat (fun _ => List.prefix_append _ _) hne value, ?_, ?_⟩
  · rwa [behind_concat_append, if_neg hb]
  · rwa [others_concat, if_pos (List.head?_append_of_ne_nil _ hnode.nonempty), List.append_nil]

/-- The key of a node is set. -/
theorem Holds.assign (h : (node isEmpty nodeKey child next nodeValue).Holds kvs) (value : Value) :
    (node false nodeKey child next value).Holds (kvs ++ [(nodeKey, value)]) := by
  obtain ⟨hnode, hchild, hnext⟩ := h
  have hbehind := behind_concat_append nodeKey [] kvs value
  rw [List.append_nil, if_pos rfl, List.append_nil] at hbehind
  refine ⟨hnode.concat_self value, ?_, ?_⟩
  · rwa [hbehind]
  · rwa [others_concat, if_pos rfl, List.append_nil]

/-- **The lower part of a node that is split** holds what the node held. -/
theorem Holds.lower {p a : Bytes} (hp : p ≠ []) (ha : a ≠ [])
    (h : (node isEmpty (p ++ a) child next nodeValue).Holds kvs) :
    (node isEmpty a child null nodeValue).Holds (behind p kvs) := by
  obtain ⟨hnode, hchild, -⟩ := h
  have hall := hnode.isPrefix_of_mem_below hp
  have hbehind : behind p kvs = below p kvs := by
    rw [behind, List.filter_eq_self]
    intro kv hkv
    have hpre := hall kv hkv
    have hne : kv.1 ≠ [] := by
      intro hnil
      rw [hnil, List.prefix_nil] at hpre
      exact ha hpre
    simpa using hne
  have hhead : ∀ kv ∈ below p kvs, kv.1.head? = a.head? := by
    intro kv hkv
    obtain ⟨t, ht⟩ := hall kv hkv
    rw [← ht, List.head?_append_of_ne_nil _ ha]
  have hdeeper : ∀ x : UInt8, (∃ kv ∈ kvs, p ++ a ++ [x] <+: kv.1) → ∃ kv ∈ below p kvs, a ++ [x] <+: kv.1 := by
    rintro x ⟨⟨_, v⟩, hkv, t, rfl⟩
    refine ⟨(a ++ [x] ++ t, v), mem_below_iff.mpr ?_, List.prefix_append _ _⟩
    simpa using hkv
  rw [hbehind]
  refine ⟨?_, ?_, ?_⟩
  · exact {
      nonempty := ha
      first := by
        obtain ⟨kv, hkv, -⟩ := hnode.head?_below
        exact ⟨kv, hkv, hhead kv (List.mem_of_head? hkv)⟩
      shared := fun kv hkv _ => hall kv hkv
      value := fun he => by rw [lastSet_below, hnode.value he]
      unset := fun he => by rw [lastSet_below, hnode.unset he]
      parts := fun he => by
        obtain ⟨x, y, hxy, hx, hy⟩ := hnode.parts he
        exact ⟨x, y, hxy, hdeeper x hx, hdeeper y hy⟩ }
  · rwa [behind, below_below, ← behind]
  · simpa [Holds, others] using hhead

/-- **A node that is split.** The upper part holds the settings of both parts below it. -/
theorem Holds.upper {p a : Bytes} (hp : p ≠ []) (ha : a ≠ [])
    (h : (node isEmpty (p ++ a) child next nodeValue).Holds kvs) {b : Bytes} (hb : b.head? ≠ a.head?)
    {value upperValue : Value} (hvalue : b = [] → upperValue = value) {child' : RadixTreeNodePtr Value}
    (hchild : child'.Holds (behind p (kvs ++ [(p ++ b, value)]))) :
    (node (b ≠ []) p child' next upperValue).Holds (kvs ++ [(p ++ b, value)]) := by
  obtain ⟨hnode, -, hnext⟩ := h
  have hhead (t : Bytes) : (p ++ t).head? = p.head? := List.head?_append_of_ne_nil _ hp
  have hunset : lastSet kvs p = none := by
    rw [lastSet_eq_none_iff]
    rintro kv hkv rfl
    obtain ⟨t, ht⟩ := hnode.shared kv hkv (hhead a).symm
    simp [ha] at ht
  refine ⟨?_, hchild, ?_⟩
  · exact {
      nonempty := hp
      first := by
        rw [hnode.head?_concat, ← hhead a]
        exact hnode.first
      shared := by
        simp only [List.forall_mem_append, List.forall_mem_singleton]
        refine ⟨fun kv hkv heq => ?_, fun _ => List.prefix_append p b⟩
        exact (List.prefix_append p a).trans (hnode.shared kv hkv (heq.trans (hhead a).symm))
      value := fun he => by
        have hnil : b = [] := by simpa using he
        rw [lastSet_concat, hvalue hnil, hnil, List.append_nil, if_pos rfl]
      unset := fun he => by
        have hne : b ≠ [] := by simpa using he
        rw [lastSet_concat, if_neg (fun heq => hne (List.self_eq_append_right.mp heq)), hunset]
      parts := fun he => by
        have hne : b ≠ [] := by simpa using he
        obtain ⟨x, a', rfl⟩ := List.exists_cons_of_ne_nil ha
        obtain ⟨y, b', rfl⟩ := List.exists_cons_of_ne_nil hne
        obtain ⟨kv, hfirst, hkv⟩ := hnode.first
        obtain ⟨t, ht⟩ := hnode.shared kv (List.mem_of_head? hfirst) hkv
        refine ⟨x, y, by simpa [eq_comm] using hb, ⟨kv, ?_, ?_⟩, (p ++ y :: b', value), by simp, by simp⟩
        · exact List.mem_append_left _ (List.mem_of_head? hfirst)
        · rw [← ht]
          simp }
  · rw [others_concat, if_pos (hhead b), List.append_nil]
    rw [others, hhead a, ← others] at hnext
    exact hnext

/-- **A setting is added to what a tree holds.** -/
theorem Holds.insert {t : RadixTreeNodePtr Value} (h : t.Holds kvs) (hkvs : ∀ kv ∈ kvs, kv.1 ≠ [])
    (hkey : key ≠ []) (value : Value) : (t.insert key value).Holds (kvs ++ [(key, value)]) := by
  induction t generalizing kvs key with
  | null =>
    obtain rfl : kvs = [] := h
    exact holds_single hkey value
  | node isEmpty nodeKey child next nodeValue ihc ihn =>
    have hnode := h.1
    obtain ⟨p, a, b, rfl, rfl, hlen, hparted⟩ := exists_common nodeKey key
    rw [RadixTreeNodePtr.insert]
    simp only [hlen, List.length_append, List.take_left, List.drop_left]
    by_cases hp : p = []
    · -- nothing is shared
      subst hp
      rw [List.nil_append] at hnode hkey
      rw [if_pos List.length_nil]
      have hhead : b.head? ≠ a.head? := by
        obtain ⟨x, a, rfl⟩ := List.exists_cons_of_ne_nil hnode.nonempty
        exact hparted x rfl
      refine h.sibling hhead (ihn h.2.2 (fun kv hkv => hkvs kv (List.mem_of_mem_filter hkv)) hkey)
    rw [if_neg (by simpa using hp)]
    by_cases ha : a = []
    · subst ha
      rw [if_neg (by simp)]
      by_cases hb : b = []
      · -- the key of the node
        subst hb
        rw [if_pos (by simp)]
        simpa using h.assign value
      · rw [if_neg (by simpa using hb)]
        simp only [List.append_nil] at h ⊢
        refine h.descend hb (ihc h.2.1 (fun kv hkv => ?_) hb)
        exact (mem_behind_iff.mp hkv).2
    · -- the node is split
      rw [if_pos (by simpa using List.length_pos_of_ne_nil ha)]
      have hhead : b.head? ≠ a.head? := by
        obtain ⟨x, a, rfl⟩ := List.exists_cons_of_ne_nil ha
        exact hparted x rfl
      have hlower := h.lower hp ha
      by_cases hb : b = []
      · subst hb
        rw [if_pos (by simp)]
        have hchild : (node isEmpty a child null nodeValue).Holds (behind p (kvs ++ [(p ++ [], value)])) := by
          rwa [behind_concat_append, if_pos rfl, List.append_nil]
        exact h.upper hp ha hhead (fun _ => rfl) hchild
      · rw [if_neg (by simpa using hb)]
        have hchild : (node isEmpty a child (node false b null null value) nodeValue).Holds
            (behind p (kvs ++ [(p ++ b, value)])) := by
          rw [behind_concat_append, if_neg hb]
          refine hlower.sibling hhead ?_
          rw [show others a (behind p kvs) = [] from hlower.2.2]
          exact holds_single hb value
        have hsame : b = [] → nodeValue = value := fun hnil => absurd hnil hb
        have hupper := h.upper hp ha hhead hsame hchild
        rwa [decide_eq_true hb] at hupper

end RadixTreeNodePtr

/-! ### What a search finds -/

/-- What a search finds after these settings. At each byte it stops if `*` was set before all keys
that go on with the byte; behind the last byte it finds the key that ends there, or `*` if nothing
else goes on from there. -/
def route : Bytes → List (Bytes × Value) → Option Value
  | [], kvs =>
    match lastSet kvs [] with
    | some v => some v
    | none => if ∀ kv ∈ kvs, kv.1 = [WildCard] then lastSet kvs [WildCard] else none
  | c :: x, kvs =>
    if c ≠ WildCard ∧ earlier [WildCard] [c] kvs then lastSet kvs [WildCard] else route x (below [c] kvs)

/-- A key in which `*` comes last or not at all. -/
def Routable (key : Bytes) : Prop := WildCard ∉ key.dropLast

instance (key : Bytes) : Decidable (Routable key) := inferInstanceAs (Decidable (WildCard ∉ key.dropLast))

@[simp] theorem route_nil (x : Bytes) : route x ([] : List (Bytes × Value)) = none := by
  induction x with
  | nil => simp [route, lastSet]
  | cons c x ih => simp [route, earlier, ih]

/-- Behind a byte, keys that are not longer do not matter. -/
theorem route_filter_ne_nil {x : Bytes} (hx : x ≠ []) (kvs : List (Bytes × Value)) :
    route x (kvs.filter fun kv => kv.1 ≠ []) = route x kvs := by
  obtain ⟨c, x, rfl⟩ := List.exists_cons_of_ne_nil hx
  rw [route, route, earlier_filter, lastSet_filter (by simp), below_filter]
  · rintro kv - hpre
    simpa using hpre.ne_nil (by simp)
  · rintro kv - (heq | hpre)
    · simp [heq]
    · simpa using hpre.ne_nil (by simp)

/-- Keys that begin with a byte that is not `*`, and not the one searched for, do not matter. -/
theorem route_others {d : UInt8} {nodeKey : Bytes} (hd : d ≠ WildCard) {c : UInt8} (hc : c ≠ d)
    (x : Bytes) (kvs : List (Bytes × Value)) :
    route (c :: x) (others (d :: nodeKey) kvs) = route (c :: x) kvs := by
  have hkeep (k : Bytes) (h : k = [WildCard] ∨ [c] <+: k) : k.head? ≠ (d :: nodeKey).head? := by
    rcases h with rfl | ⟨t, rfl⟩
    · simpa using hd.symm
    · simpa using hc
  rw [route, route, others, earlier_filter, lastSet_filter, below_filter]
  · exact fun kv _ hpre => decide_eq_true (hkeep kv.1 (.inr hpre))
  · exact fun v => decide_eq_true (hkeep [WildCard] (.inl rfl))
  · exact fun kv _ h => decide_eq_true (hkeep kv.1 h)

/-- Along what all keys share a search only goes on. -/
theorem route_append_of_shared {p : Bytes} (hshared : ∀ kv ∈ kvs, p <+: kv.1) (x : Bytes) :
    route (p ++ x) kvs = route x (below p kvs) := by
  induction p generalizing kvs with
  | nil => rw [below_empty, List.nil_append]
  | cons c p ih =>
    have hstop : ¬ (c ≠ WildCard ∧ earlier [WildCard] [c] kvs) := by
      rintro ⟨hc, hearlier⟩
      obtain ⟨v, hmem⟩ := mem_of_earlier hearlier
      exact hc (List.cons_prefix_cons.mp (hshared _ hmem)).1
    have hrest : ∀ kv ∈ below [c] kvs, p <+: kv.1 := by
      rw [forall_mem_below_iff (P := fun k => p <+: k)]
      rintro kv hkv k hk
      have hpre := hshared kv hkv
      rw [hk] at hpre
      exact (List.cons_prefix_cons.mp hpre).2
    rw [List.cons_append, route, if_neg hstop, ih hrest, below_below, List.singleton_append]

/-- Where only `*` goes on, a search that does not find this byte stops. -/
theorem route_of_wildCards (hne : kvs ≠ []) (hall : ∀ kv ∈ kvs, kv.1 = [WildCard]) {x : Bytes}
    (hx : x.head? ≠ some WildCard) : route x kvs = lastSet kvs [WildCard] := by
  obtain ⟨⟨k, v⟩, kvs, rfl⟩ := List.exists_cons_of_ne_nil hne
  cases x with
  | nil =>
    have hnone : lastSet ((k, v) :: kvs) [] = none := by
      rw [lastSet_eq_none_iff]
      intro kv hkv
      simp [hall kv hkv]
    rw [route, hnone]
    exact if_pos hall
  | cons c x =>
    have hk : k = [WildCard] := hall (k, v) List.mem_cons_self
    have hc : c ≠ WildCard := by simpa using hx
    rw [route, if_pos ⟨hc, by simp [earlier, hk]⟩]

/-- Where all keys go on with another byte, a search finds nothing. -/
theorem route_of_parted (hne : kvs ≠ []) {d : UInt8} (hd : d ≠ WildCard)
    (hall : ∀ kv ∈ kvs, kv.1.head? = some d) {x : Bytes} (hx : x.head? ≠ some d) : route x kvs = none := by
  have hwild : ∀ kv ∈ kvs, kv.1 ≠ [WildCard] := by
    rintro kv hkv heq
    have hhead := hall kv hkv
    rw [heq] at hhead
    exact hd (Option.some.inj hhead).symm
  cases x with
  | nil =>
    have hnone : lastSet kvs [] = none := by
      rw [lastSet_eq_none_iff]
      rintro kv hkv heq
      have hhead := hall kv hkv
      rw [heq] at hhead
      cases hhead
    rw [route, hnone]
    obtain ⟨kv, hkv⟩ := List.exists_mem_of_ne_nil kvs hne
    exact if_neg fun h => hwild kv hkv (h kv hkv)
  | cons c x =>
    have hstop : ¬ (c ≠ WildCard ∧ earlier [WildCard] [c] kvs) := by
      rintro ⟨-, hearlier⟩
      obtain ⟨v, hmem⟩ := mem_of_earlier hearlier
      exact hwild _ hmem rfl
    have hnil : below [c] kvs = [] := by
      rw [List.eq_nil_iff_forall_not_mem]
      rintro ⟨k, v⟩ hmem
      have hhead := hall _ (mem_below_iff.mp hmem)
      exact hx hhead
    rw [route, if_neg hstop, hnil, route_nil]

/-! ### The search in a tree -/

theorem Routable.of_append {p k : Bytes} (h : Routable (p ++ k)) : Routable k := by
  by_cases hk : k = []
  · simp [Routable, hk]
  · rw [Routable, List.dropLast_append_of_ne_nil hk] at h
    exact fun hmem => h (List.mem_append_right p hmem)

/-- A key that goes on behind a `*` does not. -/
theorem Routable.eq_nil {p k : Bytes} (h : Routable (p ++ WildCard :: k)) : k = [] := by
  by_contra hk
  rw [Routable, List.dropLast_append_of_ne_nil (by simp), List.dropLast_cons_of_ne_nil hk] at h
  exact h (by simp)

theorem Routable.eq_of_isPrefix {p k : Bytes} (h : Routable k) (hpre : p ++ [WildCard] <+: k) :
    k = p ++ [WildCard] := by
  obtain ⟨t, rfl⟩ := hpre
  rw [List.append_assoc, List.singleton_append] at h ⊢
  rw [h.eq_nil]

variable {isEmpty : Bool} {nodeValue : Value}

/-- A search that begins with what a node begins with goes on below it. -/
theorem MadeBy.route_append {p a : Bytes} (hp : p ≠ []) (h : MadeBy isEmpty (p ++ a) nodeValue kvs)
    (x : Bytes) : route (p ++ x) kvs = route x (below p kvs) := by
  obtain ⟨c, p, rfl⟩ := List.exists_cons_of_ne_nil hp
  have hstop : ¬ (c ≠ WildCard ∧ earlier [WildCard] [c] kvs) := by
    rintro ⟨hc, hearlier⟩
    obtain ⟨kv, hfirst, hhead⟩ := h.first
    obtain ⟨kvs, rfl⟩ := List.head?_eq_some_iff.mp hfirst
    obtain ⟨t, ht⟩ := h.shared kv List.mem_cons_self hhead
    simp [earlier, ← ht, hc] at hearlier
  have hone : ∀ kv ∈ below [c] kvs, p ++ a <+: kv.1 :=
    MadeBy.isPrefix_of_mem_below (p := [c]) (by simp) h
  rw [List.cons_append, route, if_neg hstop,
    route_append_of_shared fun kv hkv => (List.prefix_append p a).trans (hone kv hkv), below_below,
    List.singleton_append]

/-- Behind a `*` the key of a node ends. -/
theorem MadeBy.eq_nil_of_wildCard {p a : Bytes} (h : MadeBy isEmpty (p ++ WildCard :: a) nodeValue kvs)
    (hkvs : ∀ kv ∈ kvs, Routable kv.1) : a = [] := by
  obtain ⟨kv, hfirst, hhead⟩ := h.first
  have hmem := List.mem_of_head? hfirst
  obtain ⟨t, ht⟩ := h.shared kv hmem hhead
  have hroutable := hkvs kv hmem
  rw [← ht, List.append_assoc, List.cons_append] at hroutable
  exact (List.append_eq_nil_iff.mp hroutable.eq_nil).1

theorem MadeBy.below_ne_nil {p a : Bytes} (h : MadeBy isEmpty (p ++ a) nodeValue kvs) : below p kvs ≠ [] := by
  obtain ⟨kv, hfirst, -⟩ := h.head?_below
  rintro hnil
  rw [hnil] at hfirst
  cases hfirst

/-- A node that ends with `*`, and where a search that has found the rest of it stops. -/
theorem MadeBy.route_wildCard {p b : Bytes} (h : MadeBy isEmpty (p ++ [WildCard]) nodeValue kvs)
    (hkvs : ∀ kv ∈ kvs, Routable kv.1) (hb : b.head? ≠ some WildCard) (hne : p ++ b ≠ []) :
    route (p ++ b) kvs = some nodeValue := by
  have hempty : isEmpty = false := by
    rw [← Bool.not_eq_true]
    intro he
    obtain ⟨x, -, -, ⟨kv, hkv, hpre⟩, -⟩ := h.parts he
    have heq := (hkvs kv hkv).eq_of_isPrefix ((List.prefix_append _ [x]).trans hpre)
    have hlen := hpre.length_le
    rw [heq] at hlen
    simp at hlen
  by_cases hp : p = []
  · subst hp
    obtain ⟨c, x, rfl⟩ := List.exists_cons_of_ne_nil (show b ≠ [] from hne)
    obtain ⟨kv, hfirst, hhead⟩ := h.first
    obtain ⟨kvs, rfl⟩ := List.head?_eq_some_iff.mp hfirst
    have heq := (hkvs kv List.mem_cons_self).eq_of_isPrefix (h.shared kv List.mem_cons_self hhead)
    have hc : c ≠ WildCard := by simpa using hb
    rw [List.nil_append, route, if_pos ⟨hc, by simp [earlier, heq]⟩]
    exact h.value hempty
  · have hall : ∀ kv ∈ below p kvs, kv.1 = [WildCard] := by
      rintro ⟨k, v⟩ hkv
      have hpre := h.isPrefix_of_mem_below hp (k, v) hkv
      have hroutable := hkvs _ (mem_below_iff.mp hkv)
      exact List.append_cancel_left (hroutable.eq_of_isPrefix ((List.prefix_append_right_inj p).mpr hpre))
    rw [h.route_append hp, route_of_wildCards h.below_ne_nil hall hb, lastSet_below, h.value hempty]

theorem MadeBy.ne_wildCard {p a : Bytes} {d : UInt8} (h : MadeBy isEmpty (p ++ d :: a) nodeValue kvs)
    (hkvs : ∀ kv ∈ kvs, Routable kv.1) (hne : d :: a ≠ [WildCard]) : d ≠ WildCard := by
  rintro rfl
  rw [h.eq_nil_of_wildCard hkvs] at hne
  exact hne rfl

/-- A search that leaves the key of a node finds nothing. -/
theorem MadeBy.route_eq_none {p a b : Bytes} {d : UInt8} (hp : p ≠ [])
    (h : MadeBy isEmpty (p ++ d :: a) nodeValue kvs) (hd : d ≠ WildCard) (hb : b.head? ≠ some d) :
    route (p ++ b) kvs = none := by
  have hall : ∀ kv ∈ below p kvs, kv.1.head? = some d := by
    intro kv hkv
    obtain ⟨t, ht⟩ := h.isPrefix_of_mem_below hp kv hkv
    rw [← ht]
    rfl
  rw [h.route_append hp, route_of_parted h.below_ne_nil hd hall hb]

/-- A search that goes on behind the key of a node. -/
theorem MadeBy.route_behind {b : Bytes} (h : MadeBy isEmpty nodeKey nodeValue kvs) (hb : b ≠ []) :
    route (nodeKey ++ b) kvs = route b (behind nodeKey kvs) := by
  have h' : MadeBy isEmpty (nodeKey ++ []) nodeValue kvs := by rwa [List.append_nil]
  rw [h'.route_append h.nonempty, behind, route_filter_ne_nil hb]

/-- Behind its key a node that is not empty has its value, and one that is has nothing. -/
theorem MadeBy.route_self (h : MadeBy isEmpty nodeKey nodeValue kvs) :
    route nodeKey kvs = if isEmpty then none else some nodeValue := by
  have h' : MadeBy isEmpty (nodeKey ++ []) nodeValue kvs := by rwa [List.append_nil]
  have hroute := h'.route_append h.nonempty []
  rw [List.append_nil] at hroute
  have hlast : lastSet (below nodeKey kvs) [] = lastSet kvs nodeKey := by rw [lastSet_below, List.append_nil]
  rw [hroute, route, hlast]
  cases isEmpty with
  | false => rw [h.value rfl, if_neg Bool.false_ne_true]
  | true =>
    rw [h.unset rfl, if_pos rfl]
    refine if_neg fun hall => ?_
    obtain ⟨x, y, hxy, ⟨⟨_, v⟩, hkv, t, rfl⟩, ⟨_, v'⟩, hkv', t', rfl⟩ := h.parts rfl
    rw [List.append_assoc] at hkv hkv'
    have hx := hall _ (mem_below_iff.mpr hkv)
    have hy := hall _ (mem_below_iff.mpr hkv')
    rw [← hy] at hx
    exact hxy (List.cons.inj hx).1

namespace RadixTreeNodePtr

/-- The wildcard test of `getNode`, where a key begins with `p`: only `*` is left of the key of the node. -/
theorem wildCard_test_iff {p a : Bytes} (hpos : 1 ≤ (p ++ a).length) :
    p.length = usub (p ++ a).length 1 ∧ (p ++ a).getLast? = some WildCard ↔ a = [WildCard] := by
  rw [usub_of_le hpos, List.length_append]
  constructor
  · rintro ⟨hone, hlast⟩
    rw [List.length_append] at hpos
    obtain ⟨d, rfl⟩ := List.length_eq_one_iff.mp (show a.length = 1 by omega)
    rw [List.getLast?_concat, Option.some.injEq] at hlast
    rw [hlast]
  · rintro rfl
    exact ⟨rfl, List.getLast?_concat⟩

/-- **A search in a tree finds what its settings say.** -/
theorem Holds.getNode_eq {t : RadixTreeNodePtr Value} (h : t.Holds kvs) (ht : t ≠ null)
    (hkvs : ∀ kv ∈ kvs, Routable kv.1) {x : Bytes} (hx : x ≠ []) : getNode t x = .ok (route x kvs) := by
  induction t generalizing kvs x with
  | null => exact absurd rfl ht
  | node isEmpty nodeKey child next nodeValue ihc ihn =>
    obtain ⟨hnode, hchild, hnext⟩ := h
    obtain ⟨p, a, b, rfl, rfl, hlen, hparted⟩ := exists_common nodeKey x
    rw [getNode]
    simp only [hlen, wildCard_test_iff (List.length_pos_of_ne_nil hnode.nonempty)]
    by_cases ha : a = [WildCard]
    · subst ha
      rw [if_pos rfl, hnode.route_wildCard hkvs (by simpa using hparted) hx]
    rw [if_neg ha]
    by_cases hp : p = []
    · -- another byte
      subst hp
      obtain ⟨c, x, rfl⟩ := List.exists_cons_of_ne_nil hx
      obtain ⟨d, a, rfl⟩ := List.exists_cons_of_ne_nil (show a ≠ [] from hnode.nonempty)
      rw [List.nil_append] at hnode
      have hd : d ≠ WildCard := MadeBy.ne_wildCard (p := []) hnode hkvs ha
      have hc : c ≠ d := by simpa [eq_comm] using hparted
      rw [if_pos List.length_nil, List.nil_append, ← route_others hd hc x kvs]
      rw [List.nil_append] at hnext
      cases next with
      | null =>
        rw [show others (d :: a) kvs = [] from hnext, route_nil]
        rfl
      | node => exact ihn hnext (by simp) (fun kv hkv => hkvs kv (List.mem_of_mem_filter hkv)) (by simp)
    rw [if_neg (by simpa using hp)]
    by_cases ha' : a = []
    · -- the whole key of the node
      subst ha'
      rw [if_neg (by simp)]
      rw [List.append_nil] at hnode hchild
      by_cases hb : b = []
      · subst hb
        rw [if_pos (by simp), List.append_nil, hnode.route_self]
        split <;> rfl
      · have hne : ¬ p.length = (p ++ b).length := by simpa using hb
        have hsub : substr (p ++ b) p.length (usub (p ++ b).length p.length) = .ok b := by
          rw [substr, if_pos (by simp), usub_of_le (by simp), List.drop_left, List.take_of_length_le (by simp)]
        rw [if_neg hne, hnode.route_behind hb]
        cases child with
        | null =>
          rw [show behind p kvs = [] from hchild, route_nil]
          rfl
        | node =>
          rw [if_neg (by simp), hsub]
          refine ihc hchild (by simp) (fun kv hkv => ?_) hb
          exact (hkvs _ (mem_behind_iff.mp hkv).1).of_append
    · -- the search leaves the node
      obtain ⟨d, a, rfl⟩ := List.exists_cons_of_ne_nil ha'
      have hd : d ≠ WildCard := hnode.ne_wildCard hkvs ha
      rw [if_pos (by simp), hnode.route_eq_none hp hd (by simpa using hparted)]

end RadixTreeNodePtr

namespace RadixTree

/-- **A tree holds its settings**, of whatever keys. -/
theorem holds_setAll (hkvs : ∀ kv ∈ kvs, kv.1 ≠ []) : ∃ t : RadixTree Value,
    new.setAll kvs = .ok t ∧ t.root_.Holds kvs ∧ (kvs ≠ [] → t.root_ ≠ .null) := by
  induction kvs using List.reverseRecOn with
  | nil => exact ⟨new, rfl, rfl, fun hne => absurd rfl hne⟩
  | append_singleton kvs kv ih =>
    have hbefore : ∀ kv ∈ kvs, kv.1 ≠ [] := fun kv hkv => hkvs kv (List.mem_append_left _ hkv)
    obtain ⟨t, ht, hholds, -⟩ := ih hbefore
    have hkey : kv.1 ≠ [] := hkvs kv (by simp)
    refine ⟨⟨t.root_.insert kv.1 kv.2⟩, ?_, hholds.insert hbefore hkey kv.2, fun _ => ?_⟩
    · rw [setAll_concat ht, set_eq]
    · exact RadixTreeNodePtr.insert_ne_null t.root_ kv.1 kv.2

/-- **A search after a sequence of settings.** -/
theorem get_eq_route (hkvs : ∀ kv ∈ kvs, kv.1 ≠ [] ∧ Routable kv.1) : ∃ t : RadixTree Value,
    new.setAll kvs = .ok t ∧ (kvs ≠ [] → ∀ x, x ≠ [] → t.get x = .ok (route x kvs)) := by
  obtain ⟨t, ht, hholds, hroot⟩ := holds_setAll fun kv hkv => (hkvs kv hkv).1
  exact ⟨t, ht, fun hne x hx => hholds.getNode_eq (hroot hne) (fun kv hkv => (hkvs kv hkv).2) hx⟩

end RadixTree

end UvCpp.Http
