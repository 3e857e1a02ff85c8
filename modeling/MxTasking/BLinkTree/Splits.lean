import MxTasking.BLinkTree.Refinement

/-!
# What the splits do to the arrays

`split(inner_node, key, separator)` and `split(leaf_node, key, value)` in terms of the lists that
the live slots of a node are, for every capacity.  The arrays of the two halves are those of the
full node with the new slots inserted, cut in the middle (`Node.CutAt`, `Node.LeafCut`); put one
behind the other they are the old lists with the new key, separator or record in its place.

Unlike the map a node represents, the lists need no low bound in front of the keys, so the smallest
key may be one of them.

## Main results

* `Node.CutAt.keyList`, `Node.CutAt.separatorList`, `Node.LeafCut.records` — the lists of the
  halves.
* `split_spec` — both splits of the tree.
-/

namespace MxTasking.BLinkTree

open MxTasking.Verified.Slots

variable {K V : Type*}

namespace Node

variable {L : Layout K V} {n new : Node K V} {key : K} {value : V} {separator : Ptr}

/-- The keys of a node. -/
def keyList (n : Node K V) : List K := firstSlots n.keys n.size

/-- The separators of an inner node. -/
def separatorList (n : Node K V) : List Ptr := firstSlots n.separators (n.size + 1)

/-- The records of a leaf. -/
def records (n : Node K V) : List (K × V) := firstSlots (fun i => (n.keys i, n.values i)) n.size

/-! ## Inner nodes -/

namespace CutAt

variable {left right : Node K V} {up : K} {keys : Nat → K} {separators : Nat → Ptr} {size : Nat}

/-- The keys one behind the other. -/
theorem keyList (h : CutAt left right up keys separators size) :
    left.keyList ++ up :: right.keyList = firstSlots keys size := by
  have hLeft : left.keyList = firstSlots keys left.size := firstSlots_congr h.left_keys
  have hRight : right.keyList = firstSlots (fun j => keys (left.size + 1 + j)) right.size :=
    firstSlots_congr h.right_keys
  have hUp : firstSlots keys (left.size + 1) = firstSlots keys left.size ++ [up] := by
    rw [firstSlots_add, h.up]
    rfl
  rw [← h.size, firstSlots_add, hUp, hLeft, hRight, List.append_assoc, List.singleton_append]

/-- The separators one behind the other. -/
theorem separatorList (h : CutAt left right up keys separators size) :
    left.separatorList ++ right.separatorList = firstSlots separators (size + 1) := by
  have hLeft : left.separatorList = firstSlots separators (left.size + 1) :=
    firstSlots_congr fun j hj => h.left_separators j (Nat.le_of_lt_succ hj)
  have hRight : right.separatorList =
      firstSlots (fun j => separators (left.size + 1 + j)) (right.size + 1) :=
    firstSlots_congr fun j hj => h.right_separators j (Nat.le_of_lt_succ hj)
  rw [← h.size, Nat.add_assoc, firstSlots_add, hLeft, hRight]

end CutAt

/-! ## Leaves -/

/-- The records one behind the other. -/
theorem LeafCut.records {left right : Node K V} {keys : Nat → K} {values : Nat → V} {size : Nat}
    (h : LeafCut left right keys values size) :
    left.records ++ right.records = firstSlots (fun i => (keys i, values i)) size := by
  have hLeft : left.records = firstSlots (fun i => (keys i, values i)) left.size :=
    firstSlots_congr fun j hj => by rw [h.left_keys j hj, h.left_values j hj]
  have hRight : right.records =
      firstSlots (fun j => (keys (left.size + j), values (left.size + j))) right.size :=
    firstSlots_congr fun j hj => by rw [h.right_keys j hj, h.right_values j hj]
  rw [← h.size, firstSlots_add, hLeft, hRight]

variable [LinearOrder K]

/-- For a new key `child(key)` is the separator at the index of the key. -/
theorem child_eq (hAsc : Ascending n.keys n.size) (hNew : ∀ i < n.size, n.keys i ≠ key) :
    n.child key = n.separators (n.index key) := by
  obtain ⟨i, hi, hChild, hBelow, hAbove⟩ := child_spec hAsc key
  have hBound : IsLowerBound n.keys n.size key i := by
    refine ⟨hi, fun j hj => ?_, fun j hij hj => (hAbove j hij hj).le⟩
    exact lt_of_le_of_ne (hBelow j hj) (hNew j (by omega))
  rw [hChild, index, lowerBound_eq hAsc hBound]

end Node

/-! ## The tree -/

/-- Adopting separators changes parent links only. -/
theorem Tree.adopt_fields (t : Tree K V) (n : Node K V) (q x : Nat) :
    ∃ parent, (t.adopt n q).nodes x = { t.nodes x with parent := parent } := by
  by_cases hMem : ∃ i, i < n.size + 1 ∧ n.separators i = some x
  · obtain ⟨i, hi, hSep⟩ := hMem
    exact ⟨_, adopt_of_mem t hi hSep⟩
  · exact ⟨_, adopt_of_not_mem t fun i hi hSep => hMem ⟨i, hi, hSep⟩⟩

variable [LinearOrder K]

/-- What `split(inner_node, key, separator)` of `p` makes of the tree, with the new node and
the key that goes up. -/
structure Tree.SplitsInner (L : Layout K V) (t : Tree K V) (p : Nat) (key : K) (separator : Nat)
    (r : Tree K V × Nat × K) : Prop where
  keys : (r.1.nodes p).keyList ++ r.2.2 :: (r.1.nodes r.2.1).keyList =
    (t.nodes p).keyList.orderedInsert (· ≤ ·) key
  routed : (t.nodes p).child key = (t.nodes p).separators ((t.nodes p).index key)
  separators : (r.1.nodes p).separatorList ++ (r.1.nodes r.2.1).separatorList =
    (t.nodes p).separatorList.insertIdx ((t.nodes p).index key + 1) (some separator)
  left_size : 1 ≤ (r.1.nodes p).size ∧ (r.1.nodes p).size ≤ L.maxKeys
  right_size : 1 ≤ (r.1.nodes r.2.1).size ∧ (r.1.nodes r.2.1).size ≤ L.maxKeys
  left_highKey : (r.1.nodes p).highKey = r.2.2
  right_highKey : (r.1.nodes r.2.1).highKey = (t.nodes p).highKey
  left_sibling : (r.1.nodes p).rightSibling = some r.2.1
  right_sibling : (r.1.nodes r.2.1).rightSibling = (t.nodes p).rightSibling
  adopted : ∀ c, some c ∈ (r.1.nodes r.2.1).separatorList → (r.1.nodes c).parent = some r.2.1
  placed : (some separator ∈ (r.1.nodes p).separatorList ∧
      (r.1.nodes separator).parent = some p) ∨
    (some separator ∈ (r.1.nodes r.2.1).separatorList ∧
      (r.1.nodes separator).parent = some r.2.1)

/-- What `split(leaf_node, key, value)` of `p` makes of the tree, with the new leaf and its first
key. -/
structure Tree.SplitsLeaf (L : Layout K V) (t : Tree K V) (p : Nat) (key : K) (value : V)
    (r : Tree K V × Nat × K) : Prop where
  records : (r.1.nodes p).records ++ (r.1.nodes r.2.1).records =
    (t.nodes p).records.orderedInsert (fun x y => x.1 ≤ y.1) (key, value)
  left_size : 1 ≤ (r.1.nodes p).size ∧ (r.1.nodes p).size ≤ L.maxItems
  right_size : 1 ≤ (r.1.nodes r.2.1).size ∧ (r.1.nodes r.2.1).size ≤ L.maxItems
  up_key : (r.1.nodes r.2.1).keyList.head? = some r.2.2
  left_below : ∀ record ∈ (r.1.nodes p).records, record.1 < r.2.2
  right_from : ∀ record ∈ (r.1.nodes r.2.1).records, r.2.2 ≤ record.1
  left_highKey : (r.1.nodes p).highKey = r.2.2
  right_highKey : (r.1.nodes r.2.1).highKey = (t.nodes p).highKey
  left_sibling : (r.1.nodes p).rightSibling = some r.2.1
  right_sibling : (r.1.nodes r.2.1).rightSibling = (t.nodes p).rightSibling

section Split

variable {L : Layout K V} {t : Tree K V} {p : Nat} {key : K}

/-- The new key is in the left half exactly when it is below the key that goes up. -/
theorem Node.CutAt.index_lt_iff {n left right : Node K V} {up : K} {separators : Nat → Ptr}
    {size : Nat} (h : CutAt left right up (insertSlot n.keys (n.index key) key) separators
      (size + 1)) (hSize : n.size = size) (hAsc : Ascending n.keys n.size)
    (hNew : ∀ i < n.size, n.keys i ≠ key) : n.index key < left.size ↔ key < up := by
  have hBound := index_isLowerBound hAsc key
  have hKeys := Represents.ascending_insertSlot hAsc hBound hNew
  have hTotal := h.size
  have hPos := h.right_pos
  have hLe := hBound.le
  have hSelf : insertSlot n.keys (n.index key) key (n.index key) = key := insertSlot_self ..
  rw [h.up]
  constructor
  · intro hLess
    have hUp := hKeys (n.index key) left.size hLess (by omega)
    rwa [hSelf] at hUp
  · intro hUp
    by_contra hNot
    have hle := hKeys.le (i := left.size) (j := n.index key) (by omega) (by omega)
    rw [hSelf] at hle
    exact absurd hUp (not_lt.mpr hle)

variable [BoundedOrder K]

theorem Tree.splitInner_splits {separator : Nat} (hp : p < t.count)
    (hInner : (t.nodes p).isInner = true) (hFull : (t.nodes p).size = L.maxKeys)
    (hAsc : Ascending (t.nodes p).keys (t.nodes p).size)
    (hNew : ∀ i < (t.nodes p).size, (t.nodes p).keys i ≠ key) (hSeparator : separator < t.count)
    (hSelf : separator ≠ p) (hAbsent : some separator ∉ (t.nodes p).separatorList) :
    t.SplitsInner L p key separator (t.splitInner L p key (some separator)) := by
  have hLeaf : (t.nodes p).isLeaf = false := by
    cases hType : (t.nodes p).nodeType <;> simp_all [Node.isLeaf, Node.isInner]
  have hType : (t.nodes p).nodeType ≠ .leaf := by simpa [Node.isLeaf] using hLeaf
  obtain ⟨t₃, hResult, hAt, hOther⟩ := t.splitInner_parts (L := L) (Nat.ne_of_lt hp) hType key
    (some separator) (by simpa using Nat.ne_of_lt hSeparator) (by simpa using hSelf)
  have hCut := Node.cutAt_distributeInner hLeaf hFull hAsc hNew (some separator)
    { t.freshSibling p with rightSibling := none }
  have hHeader := Node.distributeInner_header (L := L) hLeaf key (some separator)
    { t.freshSibling p with rightSibling := none }
  have hGuard := Node.distributeInner_lt_upKey_iff (L := L) (t.nodes p)
    { t.freshSibling p with rightSibling := none } key (some separator)
  generalize (t.nodes p).distributeInner L { t.freshSibling p with rightSibling := none } key
    (some separator) = d at hResult hAt hOther hCut hHeader hGuard
  obtain ⟨left, right, up⟩ := d
  simp only at hResult hAt hCut hHeader hGuard
  obtain ⟨parent, hLeftNode⟩ := t₃.adopt_fields { right with rightSibling := left.rightSibling }
    t.count p
  obtain ⟨parent', hRightNode⟩ := t₃.adopt_fields { right with rightSibling := left.rightSibling }
    t.count t.count
  rw [hAt.left] at hLeftNode
  rw [hAt.right] at hRightNode
  have hBound := Node.index_isLowerBound hAsc key
  have hLe := hBound.le
  have hTotal := hCut.size
  have hLeftPos := hCut.left_pos
  have hRightPos := hCut.right_pos
  have hBelow : (t.nodes p).index key < left.size ↔ key < up := hCut.index_lt_iff hFull hAsc hNew
  rw [hResult]
  refine
    { keys := ?_
      routed := Node.child_eq hAsc hNew
      separators := ?_
      left_size := by rw [hLeftNode]; exact ⟨hLeftPos, by simp only; omega⟩
      right_size := by rw [hRightNode]; exact ⟨hRightPos, by simp only; omega⟩
      left_highKey := by rw [hLeftNode]
      right_highKey := by rw [hRightNode]; exact hHeader.2.highKey
      left_sibling := by rw [hLeftNode]
      right_sibling := by rw [hRightNode]; exact hHeader.1.rightSibling
      adopted := ?_
      placed := ?_ }
  · rw [hLeftNode, hRightNode]
    have hKeys := hCut.keyList
    rw [← hFull, firstSlots_insertSlot _ _ hLe] at hKeys
    refine hKeys.trans (insertIdx_firstSlots _ hLe ?_ ?_)
    · exact fun j hj => not_le.mpr (hBound.below j hj)
    · exact fun hLess => hBound.above _ (Nat.le_refl _) hLess
  · rw [hLeftNode, hRightNode]
    have hSeparators := hCut.separatorList
    rw [← hFull, firstSlots_insertSlot _ _ (Nat.succ_le_succ hLe)] at hSeparators
    exact hSeparators
  · intro c hMem
    rw [hRightNode] at hMem
    obtain ⟨i, hi, hSep⟩ := mem_firstSlots.mp hMem
    rw [Tree.adopt_of_mem t₃ (n := { right with rightSibling := left.rightSibling }) hi hSep]
  · by_cases hLess : (t.nodes p).index key < left.size
    · left
      constructor
      · rw [hLeftNode]
        refine mem_firstSlots.mpr ⟨(t.nodes p).index key + 1, Nat.succ_lt_succ hLess, ?_⟩
        exact (hCut.left_separators _ hLess).trans (insertSlot_self ..)
      · -- the right half has old separators only
        rw [Tree.adopt_of_not_mem t₃ fun i hi hSep => hAbsent ?_,
          hOther separator hSelf (Nat.ne_of_lt hSeparator),
          if_pos ⟨hGuard.mp (hBelow.mp hLess), rfl⟩]
        have hOld := hCut.right_separators i (Nat.le_of_lt_succ hi)
        rw [insertSlot_of_gt _ _ (by omega)] at hOld
        have hi' : i ≤ right.size := Nat.le_of_lt_succ hi
        exact mem_firstSlots.mpr ⟨_, by omega, hOld.symm.trans hSep⟩
    · right
      have hSep : right.separators ((t.nodes p).index key - left.size) = some separator := by
        rw [hCut.right_separators _ (by omega),
          show left.size + 1 + ((t.nodes p).index key - left.size) =
            (t.nodes p).index key + 1 by omega, insertSlot_self]
      have hi : (t.nodes p).index key - left.size < right.size + 1 := by omega
      constructor
      · rw [hRightNode]
        exact mem_firstSlots.mpr ⟨_, hi, hSep⟩
      · rw [Tree.adopt_of_mem t₃ (n := { right with rightSibling := left.rightSibling }) hi hSep]

theorem Tree.splitLeaf_splits (hp : p < t.count) (hLeaf : (t.nodes p).isLeaf = true)
    (hFull : (t.nodes p).size = L.maxItems) (hAsc : Ascending (t.nodes p).keys (t.nodes p).size)
    (hNew : ∀ i < (t.nodes p).size, (t.nodes p).keys i ≠ key) (value : V) :
    t.SplitsLeaf L p key value (t.splitLeaf L p key value) := by
  have hTwo := L.two_le_maxItems
  have hType : (t.nodes p).nodeType = .leaf := by simpa [Node.isLeaf] using hLeaf
  obtain ⟨hResult, hAt, -⟩ := t.splitLeaf_splitAt (L := L) (Nat.ne_of_lt hp) hType key value
  have hCut := Node.leafCut_distributeLeaf (L := L)
    (n := { t.nodes p with rightSibling := some t.count }) hLeaf hFull hAsc hNew value
    (t.freshSibling p)
  have hHeader := Node.distributeLeaf_header (L := L)
    (n := { t.nodes p with rightSibling := some t.count }) hLeaf key value (t.freshSibling p)
  generalize Node.distributeLeaf L _ (t.freshSibling p) key value = d
    at hResult hAt hCut hHeader
  obtain ⟨left, right⟩ := d
  generalize t.splitLeaf L p key value = r at hResult hAt
  obtain ⟨t', q, up⟩ := r
  obtain ⟨rfl, rfl⟩ := Prod.mk.inj hResult
  simp only at hAt hCut hHeader
  have hUp : right.leafKey L 0 = right.keys 0 := Node.leafKey_of_lt (by omega)
  rw [hUp] at hAt ⊢
  have hBound := Node.index_isLowerBound hAsc key
  have hLe := hBound.le
  have hTotal := hCut.size
  have hLeftPos := hCut.left_pos
  have hRightPos := hCut.right_pos
  have hKeys : Ascending (insertSlot (t.nodes p).keys ((t.nodes p).index key) key)
      ((t.nodes p).size + 1) := Represents.ascending_insertSlot hAsc hBound hNew
  have hCut' : ∀ j < right.size, right.keys j =
      insertSlot (t.nodes p).keys ((t.nodes p).index key) key (left.size + j) := hCut.right_keys
  refine
    { records := ?_
      left_size := by rw [hAt.left]; exact ⟨hLeftPos, by simp only; omega⟩
      right_size := by rw [hAt.right]; exact ⟨hRightPos, by omega⟩
      up_key := ?_
      left_below := ?_
      right_from := ?_
      left_highKey := by rw [hAt.left]
      right_highKey := by rw [hAt.right]; exact hHeader.2.highKey
      left_sibling := by rw [hAt.left]; exact hHeader.1.rightSibling
      right_sibling := by rw [hAt.right]; exact hHeader.2.rightSibling }
  · rw [hAt.left, hAt.right]
    have hRecords := hCut.records
    have hPairs : (fun i => (insertSlot (t.nodes p).keys ((t.nodes p).index key) key i,
        insertSlot (t.nodes p).values ((t.nodes p).index key) value i)) =
        insertSlot (fun i => ((t.nodes p).keys i, (t.nodes p).values i)) ((t.nodes p).index key)
          (key, value) := by
      funext i
      simp only [insertSlot]
      split_ifs <;> rfl
    rw [← hFull] at hRecords
    refine hRecords.trans ?_
    show firstSlots (fun i => (insertSlot (t.nodes p).keys ((t.nodes p).index key) key i,
      insertSlot (t.nodes p).values ((t.nodes p).index key) value i)) ((t.nodes p).size + 1) = _
    rw [hPairs, firstSlots_insertSlot _ _ hLe]
    refine insertIdx_firstSlots _ hLe ?_ ?_
    · exact fun j hj => not_le.mpr (hBound.below j hj)
    · exact fun hLess => hBound.above _ (Nat.le_refl _) hLess
  · rw [hAt.right, Node.keyList]
    obtain ⟨m, hm⟩ : ∃ m, right.size = m + 1 := ⟨right.size - 1, by omega⟩
    rw [hm, firstSlots_succ]
    rfl
  · intro record hMem
    rw [hAt.left] at hMem
    obtain ⟨j, hj, rfl⟩ := mem_firstSlots.mp hMem
    have hj' : j < left.size := hj
    show left.keys j < right.keys 0
    rw [hCut.left_keys j hj', hCut' 0 (by omega)]
    exact hKeys j _ (by omega) (by omega)
  · intro record hMem
    rw [hAt.right] at hMem
    obtain ⟨j, hj, rfl⟩ := mem_firstSlots.mp hMem
    show right.keys 0 ≤ right.keys j
    rw [hCut' 0 (by omega), hCut' j hj]
    exact hKeys.le (by omega) (by omega)

end Split

variable [BoundedOrder K]

/-- Both splits keep the contents and the routing.  The node is full with ascending keys and the new
key is not among them; the separator is another node that the node does not have yet. -/
theorem split_spec (L : Layout K V) (t : Tree K V) (p : Nat) (key : K) (hp : p < t.count)
    (hAsc : Ascending (t.nodes p).keys (t.nodes p).size)
    (hNew : key ∉ (t.nodes p).keyList) :
    (∀ separator : Nat, (t.nodes p).isInner = true → (t.nodes p).size = L.maxKeys →
      separator < t.count → separator ≠ p → some separator ∉ (t.nodes p).separatorList →
        t.SplitsInner L p key separator (t.splitInner L p key (some separator))) ∧
    ∀ value : V, (t.nodes p).isLeaf = true → (t.nodes p).size = L.maxItems →
      t.SplitsLeaf L p key value (t.splitLeaf L p key value) := by
  have hNew' : ∀ i < (t.nodes p).size, (t.nodes p).keys i ≠ key :=
    fun i hi hEq => hNew (mem_firstSlots.mpr ⟨i, hi, hEq⟩)
  constructor
  · intro separator hInner hFull hSeparator hSelf hAbsent
    exact Tree.splitInner_splits hp hInner hFull hAsc hNew' hSeparator hSelf hAbsent
  · intro value hLeaf hFull
    exact Tree.splitLeaf_splits hp hLeaf hFull hAsc hNew' value

/-- A layout with room for two keys and three records in a node. -/
def Layout.small : Layout (Fin 16) Nat where
  maxKeys := 2
  maxItems := 3
  keyOfValue v := Fin.ofNat 16 v
  two_le_maxKeys := by decide
  maxKeys_lt := by decide
  two_le_maxItems := by decide
  maxItems_lt := by decide

/-- A full branch node with the keys 2 and 5 over full leaves. -/
def Tree.sample : Tree (Fin 16) Nat where
  nodes p :=
    if p = 0 then
      ⟨.branch, ⊤, none, none, 2, fun i => if i = 0 then 2 else 5, fun _ => 0,
        fun i => some (i + 1)⟩
    else
      ⟨.leaf, ⊤, none, some 0, 3, fun i => Fin.ofNat 16 (i + i + 6), fun i => i, fun _ => none⟩
  count := 5
  root := some 0
  height := 2
  predictions := []

theorem split_spec_sample :
    Tree.sample.SplitsInner Layout.small 0 3 4
        (Tree.sample.splitInner Layout.small 0 3 (some 4)) ∧
      Tree.sample.SplitsLeaf Layout.small 3 7 1 (Tree.sample.splitLeaf Layout.small 3 7 1) := by
  have hInner : Ascending (Tree.sample.nodes 0).keys (Tree.sample.nodes 0).size := by
    intro i j hij hj
    have hj' : j < 2 := hj
    obtain ⟨rfl, rfl⟩ : i = 0 ∧ j = 1 := by omega
    decide
  have hLeaf : Ascending (Tree.sample.nodes 3).keys (Tree.sample.nodes 3).size := by
    intro i j hij hj
    have hj' : j < 3 := hj
    obtain ⟨rfl, rfl⟩ | ⟨rfl, rfl⟩ | ⟨rfl, rfl⟩ :
        (i = 0 ∧ j = 1) ∨ (i = 0 ∧ j = 2) ∨ (i = 1 ∧ j = 2) := by omega
    all_goals decide
  exact ⟨(split_spec Layout.small Tree.sample 0 3 (by decide) hInner (by decide)).1 4 (by decide)
      (by decide) (by decide) (by decide) (by decide),
    (split_spec Layout.small Tree.sample 3 7 (by decide) hLeaf (by decide)).2 1 (by decide)
      (by decide)⟩

end MxTasking.BLinkTree
