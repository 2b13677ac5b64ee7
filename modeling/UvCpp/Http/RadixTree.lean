import UvCpp.Http.HttpCommon

/-!
# The radix tree

The routes of the HTTP server are kept in a radix tree: the keys on a path from the root
down, put together, are a key of the tree; siblings are a linked list. Setting a key walks
to where it leaves the tree and adds a node there, or splits one; a node that only holds
what two keys share is empty. A key that ends in `*` matches whatever goes on from there.

For keys without `*` the tree is a dictionary. `lookup` is what a search in it finds, and
`lookup_insert` says how a key that is set changes what is found: only at that key, whatever
the tree looks like. So after any sequence of settings a search finds what was set last
(`get_setAll`).
-/

namespace UvCpp.Http

open UvCpp.Cpp

variable {Value : Type}

/-- `RadixTreeNodePtr`: a pointer to a `RadixTreeNode`. -/
inductive RadixTreeNodePtr (Value : Type) where
  /-- `nullptr`. -/
  | null
  /-- A node: whether it is empty, its key, its first child, its next sibling, its value. -/
  | node (isEmpty : Bool) (key : Bytes) (child next : RadixTreeNodePtr Value) (value : Value)
  deriving DecidableEq

/-- `RadixTree::WildCard`. -/
def WildCard : UInt8 := 42

namespace RadixTreeNodePtr

/-- `nullptr == node`. -/
def isNull : RadixTreeNodePtr Value → Bool
  | null => true
  | node .. => false

@[simp] theorem isNull_null : (null : RadixTreeNodePtr Value).isNull = true := rfl

@[simp] theorem isNull_node (isEmpty : Bool) (key : Bytes) (child next : RadixTreeNodePtr Value)
    (value : Value) : (node isEmpty key child next value).isNull = false := rfl

/-- `setNode`: the node, after the call. -/
def setNode : RadixTreeNodePtr Value → Bytes → Value → Exec (RadixTreeNodePtr Value)
  | null, _, _ => .error .undefined
  | node isEmpty nodeKey child next nodeValue, key, value =>
    let commonLength := GetCommomStringLength nodeKey key
    if commonLength = 0 then
      if next.isNull then
        .ok (node isEmpty nodeKey child (node false key null null value) nodeValue)
      else do
        let next ← setNode next key value
        .ok (node isEmpty nodeKey child next nodeValue)
    else if commonLength < nodeKey.length then do
      let key1 ← substr nodeKey 0 commonLength
      let key2 ← substr nodeKey commonLength (usub nodeKey.length commonLength)
      if key.length = commonLength then
        .ok (node false key1 (node isEmpty key2 child null nodeValue) next value)
      else
        let key3 ← substr key commonLength (usub key.length commonLength)
        let newNode := node false key3 null null value
        .ok (node true key1 (node isEmpty key2 child newNode nodeValue) next nodeValue)
    else if commonLength = key.length then .ok (node false nodeKey child next value)
    else do
      let key1 ← substr key commonLength (usub key.length commonLength)
      if child.isNull then
        .ok (node isEmpty nodeKey (node false key1 null null value) next nodeValue)
      else
        let child ← setNode child key1 value
        .ok (node isEmpty nodeKey child next nodeValue)

/-- `getNode`: the value it finds. -/
def getNode : RadixTreeNodePtr Value → Bytes → Exec (Option Value)
  | null, _ => .error .undefined
  | node isEmpty nodeKey child next nodeValue, key =>
    let commonLength := GetCommomStringLength nodeKey key
    if commonLength = usub nodeKey.length 1 ∧ nodeKey.getLast? = some WildCard then .ok (some nodeValue)
    else if commonLength = 0 then
      if next.isNull then .ok none else getNode next key
    else if commonLength < nodeKey.length then .ok none
    else if commonLength = key.length then
      if isEmpty then .ok none else .ok (some nodeValue)
    else if child.isNull then .ok none
    else do
      let key1 ← substr key commonLength (usub key.length commonLength)
      getNode child key1

end RadixTreeNodePtr

open RadixTreeNodePtr

/-- `RadixTree`. -/
structure RadixTree (Value : Type) where
  /-- The first of the nodes at the top. -/
  root_ : RadixTreeNodePtr Value

namespace RadixTree

/-- A new tree. -/
def new : RadixTree Value := ⟨null⟩

/-- `set`. -/
def set (t : RadixTree Value) (key : Bytes) (value : Value) : Exec (RadixTree Value) :=
  if t.root_.isNull then .ok ⟨node false key null null value⟩
  else do
    let root ← setNode t.root_ key value
    .ok ⟨root⟩

/-- `get`. -/
def get (t : RadixTree Value) (key : Bytes) : Exec (Option Value) := getNode t.root_ key

/-- A sequence of settings. -/
def setAll (t : RadixTree Value) (kvs : List (Bytes × Value)) : Exec (RadixTree Value) :=
  kvs.foldlM (fun t kv => t.set kv.1 kv.2) t

end RadixTree

/-! ### Shared prefixes -/

theorem common_le_left (s t : Bytes) : GetCommomStringLength s t ≤ s.length := by
  fun_induction GetCommomStringLength s t with simp_all

theorem common_le_right (s t : Bytes) : GetCommomStringLength s t ≤ t.length := by
  fun_induction GetCommomStringLength s t with simp_all

@[simp] theorem common_self (s : Bytes) : GetCommomStringLength s s = s.length := by
  induction s with
  | nil => rfl
  | cons c s ih => simp [GetCommomStringLength, ih]

/-- What is shared is equal. -/
theorem take_eq_of_le_common {s t : Bytes} {n : ℕ} (h : n ≤ GetCommomStringLength s t) :
    s.take n = t.take n := by
  fun_induction GetCommomStringLength s t generalizing n with
  | case1 s c t ih =>
    cases n with
    | zero => rfl
    | succ n => simp [ih (n := n) (by omega)]
  | case2 | case3 => simp [Nat.le_zero.mp h]

theorem common_take (s t : Bytes) (n : ℕ) :
    GetCommomStringLength (s.take n) t = min n (GetCommomStringLength s t) := by
  induction s generalizing t n with
  | nil => simp [GetCommomStringLength]
  | cons c s ih =>
    cases n with
    | zero => simp [GetCommomStringLength]
    | succ n =>
      cases t with
      | nil => simp [GetCommomStringLength]
      | cons d t =>
        rw [List.take_succ_cons, GetCommomStringLength, GetCommomStringLength]
        split
        · rw [ih, Nat.succ_min_succ]
        · simp

theorem common_drop {s t : Bytes} {n : ℕ} (h : n ≤ GetCommomStringLength s t) :
    GetCommomStringLength (s.drop n) (t.drop n) = GetCommomStringLength s t - n := by
  induction n generalizing s t with
  | zero => rfl
  | succ n ih =>
    match s, t, h with
    | c :: s, d :: t, h =>
      rw [GetCommomStringLength] at h ⊢
      split at h
      · next hcd => rw [if_pos hcd, List.drop_succ_cons, List.drop_succ_cons, ih (by omega),
          Nat.add_sub_add_right]
      · omega
    | [], t, h => simp [GetCommomStringLength] at h
    | c :: s, [], h => simp [GetCommomStringLength] at h

/-- Strings that share a prefix are equal when the rest is. -/
theorem drop_eq_drop_iff {s t : Bytes} {n : ℕ} (h : s.take n = t.take n) :
    s.drop n = t.drop n ↔ s = t := by
  constructor
  · intro hd
    rw [← List.take_append_drop n s, h, hd, List.take_append_drop]
  · rintro rfl
    rfl

/-! ### The dictionary -/

namespace RadixTreeNodePtr

/-- What `setNode` computes: a missing node is made where the key leaves the tree. -/
def insert : RadixTreeNodePtr Value → Bytes → Value → RadixTreeNodePtr Value
  | null, key, value => node false key null null value
  | node isEmpty nodeKey child next nodeValue, key, value =>
    let n := GetCommomStringLength nodeKey key
    if n = 0 then node isEmpty nodeKey child (insert next key value) nodeValue
    else if n < nodeKey.length then
      if key.length = n then
        node false (nodeKey.take n) (node isEmpty (nodeKey.drop n) child null nodeValue) next value
      else
        node true (nodeKey.take n) (node isEmpty (nodeKey.drop n) child
          (node false (key.drop n) null null value) nodeValue) next nodeValue
    else if n = key.length then node false nodeKey child next value
    else node isEmpty nodeKey (insert child (key.drop n) value) next nodeValue

/-- What a search finds, if no key ends in a wildcard. -/
def lookup : RadixTreeNodePtr Value → Bytes → Option Value
  | null, _ => none
  | node isEmpty nodeKey child next nodeValue, key =>
    let n := GetCommomStringLength nodeKey key
    if n = 0 then lookup next key
    else if n < nodeKey.length then none
    else if n = key.length then if isEmpty then none else some nodeValue
    else lookup child (key.drop n)

theorem insert_ne_null (t : RadixTreeNodePtr Value) (key : Bytes) (value : Value) :
    t.insert key value ≠ null := by
  cases t with
  | null => simp [insert]
  | node =>
    rw [insert]
    split_ifs <;> simp

/-- `setNode` on a node returns, and computes `insert`. -/
theorem setNode_eq {t : RadixTreeNodePtr Value} (ht : t ≠ null) (key : Bytes) (value : Value) :
    setNode t key value = .ok (t.insert key value) := by
  induction t generalizing key with
  | null => exact absurd rfl ht
  | node isEmpty nodeKey child next nodeValue ihc ihn =>
    have hl := common_le_left nodeKey key
    have hr := common_le_right nodeKey key
    rw [setNode, insert]
    generalize GetCommomStringLength nodeKey key = n at *
    simp only
    by_cases h0 : n = 0
    · rw [if_pos h0, if_pos h0]
      cases next with
      | null => rfl
      | node => simp [ihn]
    · rw [if_neg h0, if_neg h0]
      by_cases hlt : n < nodeKey.length
      · rw [if_pos hlt, if_pos hlt]
        simp [substr, hl, hr, usub_of_le, List.take_of_length_le]
        split <;> rfl
      · rw [if_neg hlt, if_neg hlt]
        by_cases hk : n = key.length
        · rw [if_pos hk, if_pos hk]
        · rw [if_neg hk, if_neg hk]
          have hsub : substr key n (usub key.length n) = .ok (key.drop n) := by
            rw [substr, if_pos hr, usub_of_le hr, List.take_of_length_le (by simp)]
          rw [hsub]
          cases child with
          | null => rfl
          | node => simp [ihc]

/-- A key that was set is found. -/
theorem lookup_insert_self (t : RadixTreeNodePtr Value) {key : Bytes} (hkey : key ≠ []) (value : Value) :
    (t.insert key value).lookup key = some value := by
  have hpos := List.length_pos_of_ne_nil hkey
  induction t generalizing key with
  | null => simp [insert, lookup, hkey]
  | node isEmpty nodeKey child next nodeValue ihc ihn =>
    have hl := common_le_left nodeKey key
    have hr := common_le_right nodeKey key
    rw [insert]
    generalize hn : GetCommomStringLength nodeKey key = n at *
    by_cases h0 : n = 0
    · rw [if_pos h0, lookup, hn]
      simp [h0, ihn hkey hpos]
    rw [if_neg h0]
    by_cases hlt : n < nodeKey.length
    · -- the node is split
      have htake : GetCommomStringLength (nodeKey.take n) key = n := by rw [common_take, hn, min_self]
      rw [if_pos hlt]
      split
      · next hk => simp [lookup, htake, h0, hk, hl]
      · next hk =>
        have hdrop : GetCommomStringLength (nodeKey.drop n) (key.drop n) = 0 := by
          rw [common_drop (by omega), hn, Nat.sub_self]
        have hself : key.length - n ≠ 0 := by omega
        simp [lookup, htake, h0, hl, Ne.symm hk, hdrop, hself]
    · rw [if_neg hlt]
      by_cases hk : n = key.length
      · rw [if_pos hk, lookup, hn]
        simp only [if_neg h0, if_neg hlt, if_pos hk, Bool.false_eq_true, if_false]
      · have hdrop : key.drop n ≠ [] := by simp; omega
        rw [if_neg hk, lookup, hn]
        simp [h0, hlt, hk, ihc hdrop (by simp; omega)]

/-- Only its key is found in a single node. -/
theorem lookup_single_of_ne {key q : Bytes} (hq : q ≠ key) (value : Value) :
    (node false key null null value).lookup q = none := by
  have hl := common_le_left key q
  rw [lookup]
  generalize hd : GetCommomStringLength key q = d at *
  by_cases hk : d = key.length ∧ d = q.length
  · -- all of both is shared
    have htake := take_eq_of_le_common (s := key) (t := q) hd.ge
    rw [List.take_of_length_le hk.1.ge, List.take_of_length_le hk.2.ge] at htake
    exact absurd htake.symm hq
  · simp only [lookup]
    split_ifs with h0 hlt hq <;> first | rfl | omega

/-- The lower part of a node that was split goes on where the node did. -/
theorem lookup_lower {isEmpty : Bool} {nodeKey q : Bytes} {child tail : RadixTreeNodePtr Value}
    {nodeValue : Value} {n : ℕ} (h0 : n ≠ 0) (hlt : n < nodeKey.length)
    (hn : n ≤ GetCommomStringLength nodeKey q) (htail : tail.lookup (q.drop n) = none)
    (next : RadixTreeNodePtr Value) :
    (node isEmpty (nodeKey.drop n) child tail nodeValue).lookup (q.drop n) =
      (node isEmpty nodeKey child next nodeValue).lookup q := by
  have hr := common_le_right nodeKey q
  rw [lookup, lookup, common_drop hn]
  generalize GetCommomStringLength nodeKey q = d at *
  simp only [List.length_drop, List.drop_drop, htail]
  rw [if_neg (show ¬ d = 0 by omega)]
  by_cases hd : d < nodeKey.length
  · rw [if_pos hd]
    split_ifs <;> first | rfl | omega
  · rw [if_neg hd, if_neg (by omega), if_neg (by omega), show n + (d - n) = d by omega]
    by_cases hq : d = q.length
    · rw [if_pos hq, if_pos (by omega)]
    · rw [if_neg hq, if_neg (by omega)]

/-- A key that is not set is found as before. -/
theorem lookup_insert_of_ne (t : RadixTreeNodePtr Value) {key q : Bytes} (hq : q ≠ key) (value : Value) :
    (t.insert key value).lookup q = t.lookup q := by
  induction t generalizing key q with
  | null => exact lookup_single_of_ne hq value
  | node isEmpty nodeKey child next nodeValue ihc ihn =>
    have hl := common_le_left nodeKey key
    have hl' := common_le_left nodeKey q
    have hr' := common_le_right nodeKey q
    -- the keys differ behind what both share with the node
    have hne : ∀ m ≤ GetCommomStringLength nodeKey key, m ≤ GetCommomStringLength nodeKey q →
        q.drop m ≠ key.drop m := fun m h1 h2 h =>
      hq ((drop_eq_drop_iff ((take_eq_of_le_common h2).symm.trans (take_eq_of_le_common h1))).mp h)
    by_cases h0 : GetCommomStringLength nodeKey key = 0
    · rw [insert, if_pos h0, lookup, lookup, ihn hq]
    by_cases hlt : GetCommomStringLength nodeKey key < nodeKey.length
    · rw [insert, if_neg h0, if_pos hlt]
      generalize hn : GetCommomStringLength nodeKey key = n at *
      have htake : GetCommomStringLength (nodeKey.take n) q = min n (GetCommomStringLength nodeKey q) :=
        common_take nodeKey q n
      have hlen : (nodeKey.take n).length = n := by simp [hl]
      by_cases hdn : n ≤ GetCommomStringLength nodeKey q
      · -- `q` reaches the split
        rw [min_eq_left hdn] at htake
        have hdrop := hne n le_rfl hdn
        split
        · next hk =>
          have hqn : n ≠ q.length := fun h => hdrop (by simp [h, hk])
          rw [lookup, htake, hlen, if_neg h0, if_neg (lt_irrefl n), if_neg hqn,
            lookup_lower h0 hlt hdn rfl next]
        · rw [lookup, htake, hlen, if_neg h0, if_neg (lt_irrefl n),
            lookup_lower h0 hlt hdn (lookup_single_of_ne hdrop value) next]
          split
          · next hqn =>
            -- nothing else ends where the split is
            have hd : GetCommomStringLength nodeKey q = n := by omega
            rw [lookup, hd, if_neg h0, if_pos hlt, if_pos rfl]
          · rfl
      · -- `q` leaves the node before the split
        rw [min_eq_right (by omega)] at htake
        have hd : GetCommomStringLength nodeKey q < nodeKey.length := by omega
        split <;> rw [lookup, htake, hlen, if_pos (not_le.mp hdn), lookup, if_pos hd]
    · rw [insert, if_neg h0, if_neg hlt]
      by_cases hk : GetCommomStringLength nodeKey key = key.length
      · -- the key of the node itself is set
        have hdrop : GetCommomStringLength nodeKey q = nodeKey.length →
            GetCommomStringLength nodeKey q ≠ q.length := fun h1 h2 =>
          hne nodeKey.length (by omega) h1.ge (by
            rw [List.drop_eq_nil_of_le (by omega), List.drop_eq_nil_of_le (by omega)])
        rw [if_pos hk, lookup, lookup]
        by_cases hd : GetCommomStringLength nodeKey q < nodeKey.length
        · rw [if_pos hd, if_pos hd]
        · rw [if_neg hd, if_neg hd, if_neg (hdrop (by omega)), if_neg (hdrop (by omega))]
      · -- the rest of the key is set below the node
        rw [if_neg hk, lookup, lookup]
        by_cases hd : GetCommomStringLength nodeKey q < nodeKey.length
        · rw [if_pos hd, if_pos hd]
        · have hsame : GetCommomStringLength nodeKey q = GetCommomStringLength nodeKey key := by omega
          rw [hsame, ihc (hne _ le_rfl hsame.ge)]

/-- **Setting a key** changes what is found at that key, and nothing else. -/
theorem lookup_insert (t : RadixTreeNodePtr Value) {key : Bytes} (hkey : key ≠ []) (value : Value)
    (q : Bytes) : (t.insert key value).lookup q = if q = key then some value else t.lookup q := by
  split
  · next h => rw [h, lookup_insert_self t hkey]
  · next h => exact lookup_insert_of_ne t h value

/-! ### Keys without a wildcard -/

/-- No key in a tree has a wildcard. -/
def Plain : RadixTreeNodePtr Value → Prop
  | null => True
  | node _ key child next _ => WildCard ∉ key ∧ child.Plain ∧ next.Plain

theorem Plain.insert {t : RadixTreeNodePtr Value} (ht : t.Plain) {key : Bytes} (hkey : WildCard ∉ key)
    (value : Value) : (t.insert key value).Plain := by
  induction t generalizing key with
  | null => exact ⟨hkey, trivial, trivial⟩
  | node isEmpty nodeKey child next nodeValue ihc ihn =>
    obtain ⟨hn, hc, hs⟩ := ht
    have htake (n : ℕ) : WildCard ∉ nodeKey.take n := fun h => hn (List.mem_of_mem_take h)
    have hdrop (n : ℕ) : WildCard ∉ nodeKey.drop n := fun h => hn (List.mem_of_mem_drop h)
    have hdrop' (n : ℕ) : WildCard ∉ key.drop n := fun h => hkey (List.mem_of_mem_drop h)
    rw [RadixTreeNodePtr.insert]
    split_ifs
    · exact ⟨hn, hc, ihn hs hkey⟩
    · exact ⟨htake _, ⟨hdrop _, hc, trivial⟩, hs⟩
    · exact ⟨htake _, ⟨hdrop _, hc, hdrop' _, trivial, trivial⟩, hs⟩
    · exact ⟨hn, hc, hs⟩
    · exact ⟨hn, ihc hc (hdrop' _), hs⟩

/-- Without wildcards a search looks up a key. -/
theorem getNode_eq {t : RadixTreeNodePtr Value} (ht : t ≠ null) (hp : t.Plain) (key : Bytes) :
    getNode t key = .ok (t.lookup key) := by
  induction t generalizing key with
  | null => exact absurd rfl ht
  | node isEmpty nodeKey child next nodeValue ihc ihn =>
    obtain ⟨hn, hc, hs⟩ := hp
    have hr := common_le_right nodeKey key
    have hwild : ¬ (GetCommomStringLength nodeKey key = usub nodeKey.length 1 ∧
        nodeKey.getLast? = some WildCard) := fun h => hn (List.mem_of_getLast? h.2)
    rw [getNode, if_neg hwild, lookup]
    generalize GetCommomStringLength nodeKey key = n at *
    split_ifs with h0 hnext hlt hk he hchild
    · cases next with
      | null => rfl
      | node => simp at hnext
    · cases next with
      | null => simp at hnext
      | node => exact ihn (by simp) hs key
    · rfl
    · rfl
    · rfl
    · cases child with
      | null => rfl
      | node => simp at hchild
    · have hsub : substr key n (usub key.length n) = .ok (key.drop n) := by
        rw [substr, if_pos hr, usub_of_le hr, List.take_of_length_le (by simp)]
      rw [hsub, Exec.ok_bind]
      cases child with
      | null => simp at hchild
      | node => exact ihc (by simp) hc _

/-- Any search from a node returns, whatever its keys and the key searched for are. -/
theorem returns_getNode {t : RadixTreeNodePtr Value} (ht : t ≠ null) (key : Bytes) : (getNode t key).Returns := by
  induction t generalizing key with
  | null => exact absurd rfl ht
  | node isEmpty nodeKey child next nodeValue ihc ihn =>
    rw [getNode]
    split_ifs with hwild h0 hnext hlt hk he hchild
    · exact Exec.returns_ok _
    · exact Exec.returns_ok _
    · cases next with
      | null => simp at hnext
      | node => exact ihn (by simp) key
    · exact Exec.returns_ok _
    · exact Exec.returns_ok _
    · exact Exec.returns_ok _
    · exact Exec.returns_ok _
    · refine (returns_substr (common_le_right nodeKey key) _).bind fun key1 _ => ?_
      cases child with
      | null => simp at hchild
      | node => exact ihc (by simp) key1

end RadixTreeNodePtr

/-! ### The tree -/

namespace RadixTree

theorem set_eq (t : RadixTree Value) (key : Bytes) (value : Value) :
    t.set key value = .ok ⟨t.root_.insert key value⟩ := by
  obtain ⟨root⟩ := t
  cases root with
  | null => rfl
  | node =>
    rw [set, if_neg (by simp), setNode_eq (by simp)]
    rfl

/-- The value a sequence of settings gives a key: the last one set. -/
def lastSet (kvs : List (Bytes × Value)) (key : Bytes) : Option Value :=
  kvs.foldl (fun found kv => if key = kv.1 then some kv.2 else found) none

theorem lastSet_concat (kvs : List (Bytes × Value)) (kv : Bytes × Value) (key : Bytes) :
    lastSet (kvs ++ [kv]) key = if key = kv.1 then some kv.2 else lastSet kvs key := by
  rw [lastSet, List.foldl_append]
  rfl

theorem setAll_concat {t : RadixTree Value} {kvs : List (Bytes × Value)} (h : new.setAll kvs = .ok t)
    (kv : Bytes × Value) : new.setAll (kvs ++ [kv]) = t.set kv.1 kv.2 := by
  rw [setAll, List.foldlM_append]
  change (new.setAll kvs >>= _) = _
  rw [h, Exec.ok_bind, List.foldlM_cons, set_eq]
  rfl

/-- Only a tree in which nothing was set has no node. -/
theorem root_eq_null_iff {t : RadixTree Value} {kvs : List (Bytes × Value)} (h : new.setAll kvs = .ok t) :
    t.root_ = null ↔ kvs = [] := by
  induction kvs using List.reverseRecOn generalizing t with
  | nil =>
    cases h
    exact iff_of_true rfl rfl
  | append_singleton kvs kv ih =>
    rw [setAll, List.foldlM_append, Exec.bind_eq_ok_iff] at h
    obtain ⟨t', -, h⟩ := h
    rw [List.foldlM_cons, set_eq] at h
    cases h
    exact iff_of_false (insert_ne_null t'.root_ kv.1 kv.2) (by simp)

/-- A sequence of settings of plain keys makes a dictionary. -/
theorem setAll_eq {kvs : List (Bytes × Value)} (hkvs : ∀ kv ∈ kvs, kv.1 ≠ [] ∧ WildCard ∉ kv.1) :
    ∃ t : RadixTree Value, new.setAll kvs = .ok t ∧ t.root_.Plain ∧ (kvs ≠ [] → t.root_ ≠ null) ∧
      ∀ key, t.root_.lookup key = lastSet kvs key := by
  induction kvs using List.reverseRecOn with
  | nil => exact ⟨new, rfl, trivial, by simp, fun _ => rfl⟩
  | append_singleton kvs kv ih =>
    obtain ⟨t, ht, hp, -, hlookup⟩ := ih fun kv' h => hkvs kv' (List.mem_append_left _ h)
    obtain ⟨hne, hkey⟩ := hkvs kv (by simp)
    refine ⟨⟨t.root_.insert kv.1 kv.2⟩, ?_, hp.insert hkey kv.2, fun _ => ?_, fun key => ?_⟩
    · rw [setAll_concat ht, set_eq]
    · exact insert_ne_null t.root_ kv.1 kv.2
    · rw [lookup_insert _ hne, hlookup, lastSet_concat]

/-- **The radix tree is a dictionary.** After any settings of keys that are not empty and
have no `*`, a search for a key finds the value set last for exactly that key, and nothing
if there is none. -/
theorem get_setAll (kvs : List (Bytes × Value)) (hne : kvs ≠ [])
    (hkvs : ∀ kv ∈ kvs, kv.1 ≠ [] ∧ WildCard ∉ kv.1) :
    ∃ t : RadixTree Value, new.setAll kvs = .ok t ∧
      ∀ query : Bytes, query ≠ [] → t.get query = .ok (lastSet kvs query) := by
  obtain ⟨t, ht, hp, hroot, hlookup⟩ := setAll_eq hkvs
  exact ⟨t, ht, fun query _ => by rw [get, getNode_eq (hroot hne) hp, hlookup]⟩

/-- Keys that share prefixes, one of them set twice. -/
theorem get_setAll_shared :
    ∃ t : RadixTree ℕ, new.setAll [(bytes "/ab", 0), (bytes "/abc", 1), (bytes "/ad", 2),
        (bytes "/ab", 3)] = .ok t ∧
      ∀ query : Bytes, query ≠ [] → t.get query = .ok (lastSet [(bytes "/ab", 0), (bytes "/abc", 1),
        (bytes "/ad", 2), (bytes "/ab", 3)] query) :=
  get_setAll _ (by simp) (by decide)

end RadixTree

end UvCpp.Http
