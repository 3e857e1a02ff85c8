import MxTasking.BLinkTree.NodeSpec
import MxTasking.BLinkTree.AbstractSteps

/-!
# The code refines the abstract tree

`Rep L t a` says that the nodes in memory are the nodes of the abstract tree
`a`: the header fields agree, the node type is the one of the level, and the
live slots hold the records or separators.  Each operation of `b_link_tree.h`
is one or two operations of the abstract tree.

## Main results

* `Rep.insertValue`, `Rep.setValue`, `Rep.insertSeparator` — node updates.
* `Rep.splitLeaf`, `Rep.splitInner` — a split stores or posts, then cuts.
* `Rep.createNewRoot` — root growth.
-/

namespace MxTasking.BLinkTree

open MxTasking.Verified.Slots

variable {K V : Type*}

/-! ## Writing nodes -/

namespace Tree

@[simp] theorem write_self (t : Tree K V) (p : Nat) (n : Node K V) :
    (t.write p n).nodes p = n := by
  simp [write]

theorem write_of_ne (t : Tree K V) {p x : Nat} (n : Node K V) (hx : x ≠ p) :
    (t.write p n).nodes x = t.nodes x := by
  simp [write, hx]

@[simp] theorem setParent_count (t : Tree K V) (node parent : Ptr) :
    (t.setParent node parent).count = t.count := by
  cases node <;> rfl

@[simp] theorem setParent_root (t : Tree K V) (node parent : Ptr) :
    (t.setParent node parent).root = t.root := by
  cases node <;> rfl

@[simp] theorem setParent_height (t : Tree K V) (node parent : Ptr) :
    (t.setParent node parent).height = t.height := by
  cases node <;> rfl

theorem setParent_self (t : Tree K V) (q : Nat) (parent : Ptr) :
    (t.setParent (some q) parent).nodes q = { t.nodes q with parent := parent } :=
  write_self ..

theorem setParent_of_ne (t : Tree K V) {node : Ptr} {x : Nat} (parent : Ptr)
    (hx : node ≠ some x) : (t.setParent node parent).nodes x = t.nodes x := by
  cases node with
  | none => rfl
  | some q => exact write_of_ne t _ (fun hEq => hx (by rw [hEq]))

/-- The loop over the first `k` separators, by its effect on one node. -/
private theorem adoptLoop_nodes (t : Tree K V) (n : Node K V) (q x k : Nat) :
    let t' := (List.range k).foldl
      (fun t index => t.setParent (n.separators index) (some q)) t
    ((∃ i, i < k ∧ n.separators i = some x) →
      t'.nodes x = { t.nodes x with parent := some q }) ∧
    ((∀ i, i < k → n.separators i ≠ some x) → t'.nodes x = t.nodes x) := by
  induction k with
  | zero => exact ⟨fun ⟨i, hi, _⟩ => absurd hi (Nat.not_lt_zero i), fun _ => rfl⟩
  | succ k ih =>
      obtain ⟨ihIn, ihOut⟩ := ih
      simp only [List.range_succ, List.foldl_append, List.foldl_cons, List.foldl_nil]
      by_cases hLast : n.separators k = some x
      · refine ⟨fun _ => ?_, fun hAll => absurd hLast (hAll k (Nat.lt_succ_self k))⟩
        rw [hLast, setParent_self]
        by_cases hEarlier : ∃ i, i < k ∧ n.separators i = some x
        · rw [ihIn hEarlier]
        · rw [ihOut (fun i hi hEq => hEarlier ⟨i, hi, hEq⟩)]
      · rw [setParent_of_ne _ _ hLast]
        refine ⟨fun ⟨i, hi, hEq⟩ => ihIn ⟨i, ?_, hEq⟩, fun hAll => ihOut fun i hi => ?_⟩
        · have hne : i ≠ k := fun hik => hLast (hik ▸ hEq)
          omega
        · exact hAll i (by omega)

/-- A separator of the new node gets it as its parent. -/
theorem adopt_of_mem (t : Tree K V) {n : Node K V} {q x i : Nat} (hi : i < n.size + 1)
    (hSep : n.separators i = some x) :
    (t.adopt n q).nodes x = { t.nodes x with parent := some q } :=
  (adoptLoop_nodes t n q x (n.size + 1)).1 ⟨i, hi, hSep⟩

/-- Other nodes are not touched. -/
theorem adopt_of_not_mem (t : Tree K V) {n : Node K V} {q x : Nat}
    (hAll : ∀ i, i < n.size + 1 → n.separators i ≠ some x) :
    (t.adopt n q).nodes x = t.nodes x :=
  (adoptLoop_nodes t n q x (n.size + 1)).2 hAll

private theorem adoptLoop_frame (n : Node K V) (q : Nat) (l : List Nat) :
    ∀ t : Tree K V,
      let t' := l.foldl (fun t index => t.setParent (n.separators index) (some q)) t
      t'.count = t.count ∧ t'.root = t.root ∧ t'.height = t.height := by
  induction l with
  | nil => exact fun _ => ⟨rfl, rfl, rfl⟩
  | cons i l ih =>
      intro t
      simpa using ih (t.setParent (n.separators i) (some q))

theorem adopt_frame (t : Tree K V) (n : Node K V) (q : Nat) :
    (t.adopt n q).count = t.count ∧ (t.adopt n q).root = t.root ∧
      (t.adopt n q).height = t.height :=
  adoptLoop_frame n q _ t

end Tree

/-! ## Nodes -/

variable [LinearOrder K]

/-- The type of the nodes of a level. -/
def nodeTypeAt : Nat → NodeType
  | 0 => .leaf
  | 1 => .branch
  | _ + 2 => .inner

/-- Children as separators. -/
def separatorsOf (child : K → Option Nat) : K → Option Ptr := fun k => (child k).map some

/-- The node `n` in memory is the abstract node `x`. -/
structure NodeRep (L : Layout K V) (n : Node K V) (x : AbstractNode K V) : Prop where
  nodeType : n.nodeType = nodeTypeAt x.level
  highKey : n.highKey = x.high
  rightSibling : n.rightSibling = x.right
  parent : n.parent = x.parent
  holds : x.level = 0 → n.Holds x.record ∧ n.size ≤ L.maxItems
  routes : 0 < x.level → n.Routes x.low (separatorsOf x.child) ∧ n.size ≤ L.maxKeys

/-- The tree in memory is the abstract tree `a`. -/
structure Rep (L : Layout K V) (t : Tree K V) (a : AbstractTree K V) : Prop where
  count : t.count = a.count
  root : t.root = some a.root
  height : t.height.toNat = ((a.nodes a.root).level + 1) % 256
  nodes : ∀ p, p < a.count → NodeRep L (t.nodes p) (a.nodes p)

/-! ## Separators -/

section Separators

variable (child : K → Option Nat) (k m : K)

theorem separatorsOf_update (q : Nat) :
    separatorsOf (Function.update child k (some q)) =
      Function.update (separatorsOf child) k (some (some q)) := by
  funext x
  by_cases hx : x = k
  · subst hx; simp [separatorsOf]
  · simp [separatorsOf, Function.update_of_ne hx]

theorem separatorsOf_below : separatorsOf (below m child) = below m (separatorsOf child) := by
  funext x
  by_cases hx : x < m <;> simp [separatorsOf, below, hx]

theorem separatorsOf_fromOn :
    separatorsOf (fromOn m child) = fromOn m (separatorsOf child) := by
  funext x
  by_cases hx : x < m <;> simp [separatorsOf, fromOn, hx]

omit [LinearOrder K] in
theorem separatorsOf_eq_none : separatorsOf child k = none ↔ child k = none := by
  simp [separatorsOf]

omit [LinearOrder K] in
theorem separatorsOf_eq_some (q : Nat) :
    separatorsOf child k = some (some q) ↔ child k = some q := by
  simp [separatorsOf]

end Separators

/-! ## Reading a represented node -/

namespace NodeRep

variable {L : Layout K V} {n : Node K V} {x : AbstractNode K V}

theorem isLeaf_iff (h : NodeRep L n x) : n.isLeaf = true ↔ x.level = 0 := by
  unfold Node.isLeaf
  rw [h.nodeType]
  rcases x.level with _ | _ | l <;> simp [nodeTypeAt]

theorem isInner_iff (h : NodeRep L n x) : n.isInner = true ↔ 0 < x.level := by
  unfold Node.isInner
  rw [h.nodeType]
  rcases x.level with _ | _ | l <;> simp [nodeTypeAt]

theorem isBranch_iff (h : NodeRep L n x) : n.isBranch = true ↔ x.level = 1 := by
  unfold Node.isBranch
  rw [h.nodeType]
  rcases x.level with _ | _ | l <;> simp [nodeTypeAt]

/-- Changing the parent link on both sides. -/
theorem setParent (h : NodeRep L n x) (r : Ptr) :
    NodeRep L { n with parent := r } { x with parent := r } :=
  { nodeType := h.nodeType
    highKey := h.highKey
    rightSibling := h.rightSibling
    parent := rfl
    holds := h.holds
    routes := h.routes }

/-- A leaf that is not full has a free slot, a full one has none. -/
theorem full_leaf (h : NodeRep L n x) (hLevel : x.level = 0) :
    (n.full L = false ↔ n.size < L.maxItems) ∧ (n.full L = true → n.size = L.maxItems) := by
  have hSize := (h.holds hLevel).2
  unfold Node.full
  rw [if_pos (h.isLeaf_iff.mpr hLevel)]
  simp only [decide_eq_false_iff_not, decide_eq_true_eq]
  omega

theorem full_inner (h : NodeRep L n x) (hLevel : 0 < x.level) :
    (n.full L = false ↔ n.size < L.maxKeys) ∧ (n.full L = true → n.size = L.maxKeys) := by
  have hSize := (h.routes hLevel).2
  unfold Node.full
  rw [if_neg (by rw [h.isLeaf_iff]; omega)]
  simp only [decide_eq_false_iff_not, decide_eq_true_eq]
  omega

end NodeRep

/-! ## Node updates -/

namespace Rep

variable {L : Layout K V} {t : Tree K V} {a : AbstractTree K V} {p q : Nat} {key m : K}
  {value : V} {n : Node K V}

/-- Writing a leaf whose records are updated at one key. -/
theorem put (h : Rep L t a) (hp : p < a.count) (hLeaf : (a.nodes p).level = 0)
    (hHeader : (t.nodes p).SameHeader n)
    (hHolds : n.Holds (Function.update (a.nodes p).record key (some value)))
    (hSize : n.size ≤ L.maxItems) : Rep L (t.write p n) (a.put p key value) := by
  refine ⟨h.count, h.root, ?_, fun x hx => ?_⟩
  · rw [AbstractTree.put_root, AbstractTree.put_level]; exact h.height
  have hx : x < a.count := hx
  by_cases hxp : x = p
  · subst hxp
    have hNode := h.nodes x hx
    rw [Tree.write_self]
    exact
      { nodeType := by rw [AbstractTree.put_level, hHeader.nodeType]; exact hNode.nodeType
        highKey := by rw [AbstractTree.put_high, hHeader.highKey]; exact hNode.highKey
        rightSibling := by
          rw [AbstractTree.put_right, hHeader.rightSibling]; exact hNode.rightSibling
        parent := by rw [AbstractTree.put_parent, hHeader.parent]; exact hNode.parent
        holds := fun _ => by rw [AbstractTree.put_record_self]; exact ⟨hHolds, hSize⟩
        routes := fun hPos => by rw [AbstractTree.put_level] at hPos; omega }
  · rw [Tree.write_of_ne _ _ hxp]
    simpa [AbstractTree.put, hxp] using h.nodes x hx

/-- Storing a record that is absent, in a leaf with a free slot. -/
theorem insertValue (h : Rep L t a) (hp : p < a.count) (hLeaf : (a.nodes p).level = 0)
    (hNew : (a.nodes p).record key = none) (hSize : (t.nodes p).size < L.maxItems) :
    Rep L (t.write p ((t.nodes p).insertValue ((t.nodes p).index key) value key))
      (a.put p key value) :=
  h.put hp hLeaf ⟨rfl, rfl, rfl, rfl⟩
    (((h.nodes p hp).holds hLeaf).1.insertValue hNew value) hSize

/-- Overwriting the value of a record that is there. -/
theorem setValue (h : Rep L t a) (hp : p < a.count) (hLeaf : (a.nodes p).level = 0)
    (hHit : (a.nodes p).record key ≠ none) :
    Rep L (t.write p ((t.nodes p).setValue ((t.nodes p).index key) value))
      (a.put p key value) :=
  h.put hp hLeaf ⟨rfl, rfl, rfl, rfl⟩
    (((h.nodes p hp).holds hLeaf).1.setValue hHit value) ((h.nodes p hp).holds hLeaf).2

variable [BoundedOrder K]

/-- Posting a child in an inner node with a free slot. -/
theorem insertSeparator (h : Rep L t a) (hValid : a.Valid) (hFits : a.Fits p key q)
    (hNew : ¬ a.Posted q) (hSize : (t.nodes p).size < L.maxKeys) :
    Rep L ((t.write p ((t.nodes p).insertSeparator ((t.nodes p).index key) (some q)
      key)).setParent (some q) (some p)) (a.attach p key q) := by
  have hLevel := hFits.level_eq
  refine ⟨?_, ?_, ?_, fun x hx => ?_⟩
  · rw [Tree.setParent_count]; exact h.count
  · rw [Tree.setParent_root]; exact h.root
  · rw [Tree.setParent_height, AbstractTree.attach_root, AbstractTree.attach_level]
    exact h.height
  have hx : x < a.count := hx
  by_cases hxq : x = q
  · subst hxq
    rw [Tree.setParent_self, Tree.write_of_ne _ _ hFits.ne]
    simpa [AbstractTree.attach, hFits.ne] using (h.nodes x hx).setParent (some p)
  rw [Tree.setParent_of_ne _ _ (by simpa using fun hEq => hxq hEq.symm)]
  by_cases hxp : x = p
  · subst hxp
    have hNode := h.nodes x hx
    rw [Tree.write_self]
    exact
      { nodeType := by rw [AbstractTree.attach_level]; exact hNode.nodeType
        highKey := by rw [AbstractTree.attach_high]; exact hNode.highKey
        rightSibling := by rw [AbstractTree.attach_right]; exact hNode.rightSibling
        parent := by rw [AbstractTree.attach_parent_of_ne hxq]; exact hNode.parent
        holds := fun hZero => by rw [AbstractTree.attach_level] at hZero; omega
        routes := fun _ => by
          rw [AbstractTree.attach_low, AbstractTree.attach_child_self, separatorsOf_update]
          refine ⟨(hNode.routes (by omega)).1.insertSeparator
            (hValid.low_lt_of_fits hFits hNew) ?_ (some q), hSize⟩
          rw [separatorsOf_eq_none]
          exact hValid.child_eq_none hFits hNew }
  · rw [Tree.write_of_ne _ _ hxp]
    simpa [AbstractTree.attach, hxp, hxq] using h.nodes x hx

end Rep

/-! ## Splitting a leaf -/

/-- The sibling a split fills: what the memory at the next address holds, with the header
of the node that is split. -/
def Tree.freshSibling (t : Tree K V) (p : Nat) : Node K V :=
  { t.nodes t.count with
    nodeType := (t.nodes p).nodeType
    highKey := (t.nodes p).highKey
    rightSibling := (t.nodes p).rightSibling
    parent := (t.nodes p).parent
    size := 0 }

/-- What a split leaves in memory: `left` at the address split, `right` at the next
one, everything else up to parent links. -/
structure Tree.SplitAt (t t' : Tree K V) (p : Nat) (left right : Node K V) : Prop where
  count : t'.count = t.count + 1
  root : t'.root = t.root
  height : t'.height = t.height
  left : t'.nodes p = left
  right : t'.nodes t.count = right

omit [LinearOrder K] in
/-- Adopting separators touches neither half of a split, unless one of them is a separator. -/
theorem Tree.SplitAt.adopt {t t' : Tree K V} {p : Nat} {left right n : Node K V}
    (h : t.SplitAt t' p left right) (q : Nat)
    (hLeft : ∀ i, i < n.size + 1 → n.separators i ≠ some p)
    (hRight : ∀ i, i < n.size + 1 → n.separators i ≠ some t.count) :
    t.SplitAt (t'.adopt n q) p left right := by
  obtain ⟨hCount, hRoot, hHeight⟩ := t'.adopt_frame n q
  exact
    { count := hCount.trans h.count
      root := hRoot.trans h.root
      height := hHeight.trans h.height
      left := (Tree.adopt_of_not_mem t' hLeft).trans h.left
      right := (Tree.adopt_of_not_mem t' hRight).trans h.right }

variable [BoundedOrder K]

theorem Tree.splitLeaf_splitAt {L : Layout K V} (t : Tree K V) {p : Nat} (hp : p ≠ t.count)
    (hLeaf : (t.nodes p).nodeType = .leaf) (key : K) (value : V) :
    let d := ({ t.nodes p with rightSibling := some t.count } : Node K V).distributeLeaf L
      (t.freshSibling p) key value
    let r := t.splitLeaf L p key value
    r.2 = (t.count, d.2.leafKey L 0) ∧
      t.SplitAt r.1 p { d.1 with highKey := d.2.leafKey L 0 } d.2 ∧
      ∀ x, x ≠ p → x ≠ t.count → r.1.nodes x = t.nodes x := by
  -- the guarded assignment of the right sibling copies a null pointer as well
  have hFresh : (let newLeaf : Node K V :=
      { t.nodes t.count with
        nodeType := .leaf
        highKey := ⊤
        rightSibling := none
        parent := (t.nodes p).parent
        size := 0 }
      let newLeaf := if (t.nodes p).rightSibling ≠ none then
        { newLeaf with rightSibling := (t.nodes p).rightSibling } else newLeaf
      ({ newLeaf with highKey := (t.nodes p).highKey } : Node K V)) = t.freshSibling p := by
    cases hRight : (t.nodes p).rightSibling <;> simp [freshSibling, hRight, hLeaf]
  simp only [splitLeaf, createLeafNode, createNode, write, Function.update_self] at hFresh ⊢
  rw [hFresh]
  refine ⟨rfl, ⟨rfl, rfl, rfl, ?_, ?_⟩, ?_⟩
  · simp [hp]
  · simp
  · intro x hxp hxn
    simp [hxp, hxn]

namespace Rep

variable {L : Layout K V} {t : Tree K V} {a : AbstractTree K V} {p q : Nat} {key m : K}
  {value : V} {n : Node K V}

omit [BoundedOrder K] in
/-- A split refines the abstract one when the two halves and the other nodes do. -/
theorem split {t' : Tree K V} {b : AbstractTree K V} {left right : Node K V}
    (h : Rep L t a) (hCount : b.count = a.count) (hRoot : b.root = a.root)
    (hLevel : (b.nodes b.root).level = (a.nodes a.root).level) (hRootLt : b.root < b.count)
    (hAt : t.SplitAt t' p left right)
    (hLeft : NodeRep L left ((b.split p m).nodes p))
    (hRight : NodeRep L right ((b.split p m).nodes b.count))
    (hOther : ∀ x, x < b.count → x ≠ p → NodeRep L (t'.nodes x) ((b.split p m).nodes x)) :
    Rep L t' (b.split p m) := by
  refine ⟨?_, ?_, ?_, fun x hx => ?_⟩
  · rw [hAt.count, h.count, AbstractTree.split_count, hCount]
  · rw [hAt.root, h.root, AbstractTree.split_root, hRoot]
  · rw [hAt.height, AbstractTree.split_root, AbstractTree.split_level (Nat.ne_of_lt hRootLt),
      hLevel]
    exact h.height
  · by_cases hxp : x = p
    · subst hxp; rw [hAt.left]; exact hLeft
    · by_cases hxn : x = b.count
      · subst hxn
        rw [show b.count = t.count from by rw [h.count, hCount], hAt.right]
        rw [h.count, ← hCount]
        exact hRight
      · rw [AbstractTree.split_count] at hx
        exact hOther x (by omega) hxp

/-- A leaf split is a `put` followed by a cut at the middle key. -/
theorem splitLeaf (h : Rep L t a) (hValid : a.Valid) (hp : p < a.count)
    (hLeaf : (a.nodes p).level = 0) (hk : (a.nodes p).low ≤ key ∧ key < (a.nodes p).high)
    (hNew : (a.nodes p).record key = none) (hFull : (t.nodes p).size = L.maxItems)
    (value : V) :
    ∃ t' m, t.splitLeaf L p key value = (t', a.count, m) ∧
      (a.nodes p).low < m ∧ m < (a.nodes p).high ∧
      Rep L t' ((a.put p key value).split p m) := by
  have hTwo := L.two_le_maxItems
  have hNode := h.nodes p hp
  have hHolds := (hNode.holds hLeaf).1
  have hpn : p ≠ (a.put p key value).count := Nat.ne_of_lt hp
  have hType : (t.nodes p).nodeType = .leaf := by rw [hNode.nodeType, hLeaf]; rfl
  obtain ⟨hRet, hAt, hOther⟩ := t.splitLeaf_splitAt (L := L) (by rw [h.count]; exact hpn)
    hType key value
  have hSplit := Node.Holds.distributeLeaf (L := L)
    (n := { t.nodes p with rightSibling := some t.count }) hHolds
    (by simpa [Node.isLeaf] using hType) hFull hNew value (t.freshSibling p)
  generalize Node.distributeLeaf L _ (t.freshSibling p) key value = d at hRet hAt hSplit
  rw [hSplit.up_key, h.count] at hRet
  -- the middle key lies strictly inside the range of the leaf
  have hMid := hHolds.get (i := L.maxItems / 2) (by omega)
  have hFirst := hHolds.get (i := 0) (by omega)
  have hMidRange := (hValid.record_some p hp _ _ hMid).2
  have hFirstRange := (hValid.record_some p hp _ _ hFirst).2
  have hAsc := hHolds.ascending 0 (L.maxItems / 2) (by omega) (by omega)
  refine ⟨_, _, Prod.ext rfl hRet, lt_of_le_of_lt hFirstRange.1 hAsc, hMidRange.2, ?_⟩
  refine h.split rfl rfl AbstractTree.put_level hValid.root_lt hAt ?_ ?_ ?_
  · exact
      { nodeType := by
          rw [AbstractTree.split_level hpn, AbstractTree.put_level, hLeaf]
          exact hSplit.left_header.nodeType.trans hType
        highKey := by rw [AbstractTree.split_high_self]; exact hSplit.up_key
        rightSibling := by
          rw [AbstractTree.split_right_self, AbstractTree.put_count, ← h.count]
          exact hSplit.left_header.rightSibling
        parent := by
          rw [AbstractTree.split_parent_self, AbstractTree.put_parent, ← hNode.parent]
          exact hSplit.left_header.parent
        holds := fun _ => by
          rw [AbstractTree.split_record_self, AbstractTree.put_record_self]
          exact ⟨hSplit.left, hSplit.left_size⟩
        routes := fun hPos => by
          rw [AbstractTree.split_level hpn, AbstractTree.put_level] at hPos; omega }
  · rw [AbstractTree.split_new (a := a.put p key value) hp]
    exact
      { nodeType := by
          rw [AbstractTree.put_level, hLeaf]
          exact hSplit.right_header.nodeType.trans hType
        highKey := by
          rw [AbstractTree.put_high, ← hNode.highKey]; exact hSplit.right_header.highKey
        rightSibling := by
          rw [AbstractTree.put_right, ← hNode.rightSibling]
          exact hSplit.right_header.rightSibling
        parent := by
          rw [AbstractTree.put_parent, ← hNode.parent]; exact hSplit.right_header.parent
        holds := fun _ => by
          rw [AbstractTree.put_record_self]
          exact ⟨hSplit.right, hSplit.right_size⟩
        routes := fun hPos => by rw [AbstractTree.put_level] at hPos; omega }
  · intro x hx hxp
    rw [hOther x hxp (by rw [h.count]; exact Nat.ne_of_lt hx),
      AbstractTree.split_other hxp (Nat.ne_of_lt hx), if_neg]
    · simpa [AbstractTree.put, hxp] using h.nodes x hx
    · -- a leaf has no children to move
      intro hMoves
      obtain ⟨_, _, hLevel, _⟩ := (hValid.put hp hLeaf hk).of_moves hp hMoves
      rw [AbstractTree.put_level, AbstractTree.put_level] at hLevel
      omega

end Rep

/-! ## Splitting an inner node -/

/-- The parts of `splitInner`: the two halves, the parent of a separator that stays left,
and the loop that adopts the separators that move. -/
theorem Tree.splitInner_parts {L : Layout K V} (t : Tree K V) {p : Nat} (hp : p ≠ t.count)
    (hInner : (t.nodes p).nodeType ≠ .leaf) (key : K) (separator : Ptr)
    (hSep : separator ≠ some t.count) (hSepNe : separator ≠ some p) :
    let d := (t.nodes p).distributeInner L { t.freshSibling p with rightSibling := none } key
      separator
    let right := { d.2.1 with rightSibling := d.1.rightSibling }
    let r := t.splitInner L p key separator
    ∃ t₃, r = (t₃.adopt right t.count, t.count, d.2.2) ∧
      t.SplitAt t₃ p { d.1 with rightSibling := some t.count, highKey := d.2.2 } right ∧
      ∀ x, x ≠ p → x ≠ t.count →
        t₃.nodes x =
          if key < (t.nodes p).innerKey (L.maxKeys / 2 - 1) ∧ separator = some x then
            { t.nodes x with parent := some p }
          else t.nodes x := by
  have hFresh : ({ t.nodes t.count with
      nodeType := if (t.nodes p).isBranch then .branch else .inner
      highKey := (t.nodes p).highKey
      rightSibling := none
      parent := (t.nodes p).parent
      size := 0 } : Node K V) = { t.freshSibling p with rightSibling := none } := by
    cases hType : (t.nodes p).nodeType <;> simp_all [freshSibling, Node.isBranch]
  simp only [splitInner, createInnerNode, createNode, write_self] at hFresh ⊢
  rw [hFresh]
  refine ⟨_, rfl, ?_, ?_⟩
  · by_cases hLeft : key < (t.nodes p).innerKey (L.maxKeys / 2 - 1)
    · rw [if_pos hLeft]
      exact ⟨by simp [write], by simp [write], by simp [write],
        by rw [write_of_ne _ _ hp, write_self], by rw [write_self]⟩
    · rw [if_neg hLeft]
      exact ⟨rfl, rfl, rfl, by rw [write_of_ne _ _ hp, write_self], by rw [write_self]⟩
  · intro x hxp hxn
    rw [write_of_ne _ _ hxn, write_of_ne _ _ hxp]
    by_cases hLeft : key < (t.nodes p).innerKey (L.maxKeys / 2 - 1)
    · rw [if_pos hLeft]
      by_cases hEq : separator = some x
      · subst hEq
        rw [setParent_self]
        simp only [write, Function.update_of_ne hxn, hLeft, and_self, if_true]
      · rw [setParent_of_ne _ _ hEq]
        simp only [write, Function.update_of_ne hxn, hEq, and_false, if_false]
    · rw [if_neg hLeft]
      simp only [write, Function.update_of_ne hxn, hLeft, false_and, if_false]

namespace Rep

variable {L : Layout K V} {t : Tree K V} {a : AbstractTree K V} {p q x : Nat} {key m : K}
  {n : Node K V}

/-- The separators of the right half are the children that move. -/
theorem separators_iff_moves (hValid : a.Valid) (hp : p < a.count)
    (hRoutes : n.Routes m (separatorsOf (fromOn m (a.nodes p).child))) :
    (∃ i, i < n.size + 1 ∧ n.separators i = some x) ↔ a.Moves p m x := by
  constructor
  · rintro ⟨i, hi, hSep⟩
    have hGet := hRoutes.get hi
    rw [hSep, separatorsOf_eq_some] at hGet
    have hChild := hGet
    unfold fromOn at hChild
    split at hChild
    · exact absurd hChild (by simp)
    · obtain ⟨_, _, hLow, _⟩ := hValid.child_some p hp _ x hChild
      unfold AbstractTree.Moves
      rw [hLow]
      exact hGet
  · intro hMoves
    unfold AbstractTree.Moves at hMoves
    rw [← separatorsOf_eq_some] at hMoves
    obtain ⟨i, hi, _, hSep⟩ := (hRoutes.maps _ _).mp hMoves
    exact ⟨i, hi, hSep⟩

omit [BoundedOrder K] in
/-- Beside the parent of the new child only its parent link changes. -/
theorem attach_nodes (hxp : x ≠ p) (r : Ptr) :
    ({ (a.attach p key q).nodes x with parent := r } : AbstractNode K V) =
      { a.nodes x with parent := r } := by
  by_cases hxq : x = q
  · subst hxq; simp [AbstractTree.attach, hxp]
  · simp [AbstractTree.attach, hxp, hxq]

omit [BoundedOrder K] in
/-- The other nodes after an inner split: those that move get the new node as their parent, and
a separator that stays left gets the node that was split. -/
theorem splitInner_other {t₃ : Tree K V} {up : K} (h : Rep L t a) (hFits : a.Fits p key q)
    (hMoves : ∀ x, (∃ i, i < n.size + 1 ∧ n.separators i = some x) ↔
      (a.attach p key q).Moves p m x)
    (hOther : ∀ x, x ≠ p → x ≠ t.count →
      t₃.nodes x =
        if key < up ∧ (some q : Ptr) = some x then { t.nodes x with parent := some p }
        else t.nodes x)
    (hUp : key < m → key < up) (hx : x < a.count) (hxp : x ≠ p) :
    NodeRep L ((t₃.adopt n t.count).nodes x) (((a.attach p key q).split p m).nodes x) := by
  have hxn : x ≠ t.count := by rw [h.count]; exact Nat.ne_of_lt hx
  rw [AbstractTree.split_other (a := a.attach p key q) hxp (Nat.ne_of_lt hx)]
  by_cases hMove : (a.attach p key q).Moves p m x
  · obtain ⟨i, hi, hSep⟩ := (hMoves x).mpr hMove
    rw [Tree.adopt_of_mem t₃ hi hSep, hOther x hxp hxn, if_pos hMove, h.count, attach_nodes hxp]
    have hSet := (h.nodes x hx).setParent (some a.count)
    by_cases hq : key < up ∧ (some q : Ptr) = some x
    · rw [if_pos hq]; exact hSet
    · rw [if_neg hq]; exact hSet
  · rw [Tree.adopt_of_not_mem _ fun i hi hSep => hMove ((hMoves x).mp ⟨i, hi, hSep⟩),
      hOther x hxp hxn, if_neg hMove]
    by_cases hxq : x = q
    · subst hxq
      have hlt : key < m := by
        by_contra hge
        refine hMove ?_
        unfold AbstractTree.Moves fromOn
        rw [AbstractTree.attach_low, hFits.low_eq, if_neg hge,
          AbstractTree.attach_child_self, Function.update_self]
      rw [if_pos ⟨hUp hlt, rfl⟩, attach_nodes hxp, AbstractTree.attach_parent_self hFits.ne]
      exact (h.nodes x hx).setParent (some p)
    · rw [if_neg (by simpa using fun _ hEq => hxq hEq.symm)]
      simpa [AbstractTree.attach, hxp, hxq] using h.nodes x hx

/-- An inner split is an `attach` followed by a cut at the key that goes up. -/
theorem splitInner (h : Rep L t a) (hValid : a.Valid) (hFits : a.Fits p key q)
    (hNew : ¬ a.Posted q) (hFull : (t.nodes p).size = L.maxKeys) :
    ∃ t' m, t.splitInner L p key (some q) = (t', a.count, m) ∧
      (a.nodes p).low < m ∧ m < (a.nodes p).high ∧
      ((a.attach p key q).nodes p).child m ≠ none ∧
      Rep L t' ((a.attach p key q).split p m) := by
  have hp := hFits.lt
  have hLevel := hFits.level_eq
  have hNode := h.nodes p hp
  have hRoutes := (hNode.routes (by omega)).1
  have hb := hValid.attach hFits hNew
  have hpn : p ≠ (a.attach p key q).count := Nat.ne_of_lt hp
  have hNotLeaf : (t.nodes p).isLeaf = false := by
    rw [Bool.eq_false_iff, Ne, hNode.isLeaf_iff]; omega
  have hNone : separatorsOf (a.nodes p).child key = none :=
    (separatorsOf_eq_none _ _).mpr (hValid.child_eq_none hFits hNew)
  have hqn : (some q : Ptr) ≠ some t.count := by
    rw [h.count, Ne, Option.some.injEq]; exact Nat.ne_of_lt hFits.child_lt
  have hSplit := hRoutes.distributeInner (L := L) hNotLeaf hFull hNone
    (hValid.low_lt_of_fits hFits hNew) (some q) { t.freshSibling p with rightSibling := none }
  have hUp := Node.distributeInner_lt_upKey_iff (L := L) (t.nodes p)
    { t.freshSibling p with rightSibling := none } key (some q)
  obtain ⟨t₃, hRet, hAt, hOther⟩ := t.splitInner_parts (L := L) (by rw [h.count]; exact hpn)
    (by simpa [Node.isLeaf] using hNotLeaf) key (some q) hqn (by simpa using hFits.ne)
  generalize Node.distributeInner L (t.nodes p) { t.freshSibling p with rightSibling := none }
    key (some q) = d at hSplit hUp hRet hAt hOther
  obtain ⟨left, right, m⟩ := d
  rw [← separatorsOf_update, ← AbstractTree.attach_child_self] at hSplit
  -- the key that goes up is the low bound of a child of the node
  have hChild : ((a.attach p key q).nodes p).child m ≠ none := by
    have hUpKey := hSplit.up_key
    rwa [Ne, separatorsOf_eq_none] at hUpKey
  have hHigh : m < (a.nodes p).high := by
    obtain ⟨y, hy⟩ := Option.ne_none_iff_exists'.mp hChild
    have hRange := (hb.child_some p hp m y hy).2.2.2.2.2
    rwa [AbstractTree.attach_high] at hRange
  have hRight : right.Routes m (separatorsOf (fromOn m ((a.attach p key q).nodes p).child)) := by
    rw [separatorsOf_fromOn]; exact hSplit.right
  have hMoves := fun x => separators_iff_moves (x := x) hb hp hRight
  rw [hRet, h.count]
  refine ⟨_, m, rfl, hSplit.low_lt, hHigh, hChild, ?_⟩
  rw [← h.count]
  -- neither half is among the separators that are adopted
  have hStay : ¬ (a.attach p key q).Moves p m p := fun hMove => by
    have := (hb.of_moves hp hMove).2.2.1
    omega
  have hStayNew : ¬ (a.attach p key q).Moves p m t.count := fun hMove => by
    have := (hb.child_some p hp _ _ (hb.of_moves hp hMove).2.1).1
    rw [h.count] at this
    exact absurd this (Nat.lt_irrefl _)
  have hAt' := hAt.adopt (n := { right with rightSibling := left.rightSibling }) t.count
    (fun i hi hSep => hStay ((hMoves p).mp ⟨i, hi, hSep⟩))
    (fun i hi hSep => hStayNew ((hMoves t.count).mp ⟨i, hi, hSep⟩))
  refine h.split rfl rfl AbstractTree.attach_level hValid.root_lt hAt' ?_ ?_ ?_
  · exact
      { nodeType := by
          rw [AbstractTree.split_level hpn, AbstractTree.attach_level, ← hNode.nodeType]
          exact hSplit.left_header.nodeType
        highKey := AbstractTree.split_high_self.symm
        rightSibling := by
          rw [AbstractTree.split_right_self, AbstractTree.attach_count, ← h.count]
        parent := by
          rw [AbstractTree.split_parent_self,
            AbstractTree.attach_parent_of_ne (Ne.symm hFits.ne), ← hNode.parent]
          exact hSplit.left_header.parent
        holds := fun hZero => by
          rw [AbstractTree.split_level hpn, AbstractTree.attach_level] at hZero; omega
        routes := fun _ => by
          rw [AbstractTree.split_low hpn, AbstractTree.attach_low,
            AbstractTree.split_child_self, separatorsOf_below]
          exact ⟨hSplit.left, hSplit.left_size⟩ }
  · rw [AbstractTree.split_new (a := a.attach p key q) hp]
    exact
      { nodeType := by
          rw [AbstractTree.attach_level, ← hNode.nodeType]
          exact hSplit.right_header.nodeType
        highKey := by
          rw [AbstractTree.attach_high, ← hNode.highKey]; exact hSplit.right_header.highKey
        rightSibling := by
          rw [AbstractTree.attach_right, ← hNode.rightSibling]
          exact hSplit.left_header.rightSibling
        parent := by
          rw [AbstractTree.attach_parent_of_ne (Ne.symm hFits.ne), ← hNode.parent]
          exact hSplit.right_header.parent
        holds := fun hZero => by rw [AbstractTree.attach_level] at hZero; omega
        routes := fun _ => ⟨hRight, hSplit.right_size⟩ }
  · exact fun x hx hxp => h.splitInner_other hFits hMoves hOther hUp.mp hx hxp

end Rep

/-! ## Root growth -/

/-- What `createNewRoot` leaves at each address. -/
theorem Tree.createNewRoot_nodes (t : Tree K V) (left q : Nat) (hLeft : left ≠ t.count)
    (hq : q ≠ t.count) (key : K) :
    let t' := t.createNewRoot left (some q) key
    let root : Node K V :=
      { t.nodes t.count with
        nodeType := if (t.nodes left).isLeaf then .branch else .inner
        highKey := ⊤
        rightSibling := none
        parent := none
        size := 0 }
    t'.count = t.count + 1 ∧ t'.root = some t.count ∧ t'.height = t.height + 1 ∧
      t'.nodes t.count = (root.setSeparator 0 (some left)).insertSeparator 0 (some q) key ∧
      ∀ x, x ≠ t.count →
        t'.nodes x =
          if x = left ∨ x = q then { t.nodes x with parent := some t.count }
          else t.nodes x := by
  refine ⟨rfl, rfl, rfl, ?_, ?_⟩
  · simp [createNewRoot, createInnerNode, createNode, setParent, write, hLeft, hLeft.symm,
      hq.symm]
  · intro x hx
    simp only [createNewRoot, createInnerNode, createNode, setParent]
    by_cases hxl : x = left <;> by_cases hxq : x = q
    · subst hxl; subst hxq; simp [write, hx]
    · subst hxl; simp [write, hx, hxq]
    · subst hxq; simp [write, hx, hxl]
    · simp [write, hx, hxl, hxq]

namespace Rep

variable {L : Layout K V} {t : Tree K V} {a : AbstractTree K V} {q : Nat} {m : K}

/-- The separators of a fresh root: the old root from the bottom on, its sibling from the
key that goes up on. -/
theorem newRoot_routes (n : Node K V) (hSize : n.size = 0) (left : Nat) (hm : ⊥ < m) :
    ((n.setSeparator 0 (some left)).insertSeparator 0 (some q) m).Routes ⊥
      (separatorsOf (Function.update (Function.update (fun _ => none) ⊥ (some left)) m
        (some q))) := by
  have hZero : (n.setSeparator 0 (some left)).Routes ⊥
      (separatorsOf (Function.update (fun _ => none) ⊥ (some left))) := by
    unfold Node.Routes
    rw [show (n.setSeparator 0 (some left)).size = 0 from hSize]
    refine ⟨fun i j hij hj => absurd hj (by omega), fun k s => ?_⟩
    by_cases hk : k = ⊥
    · subst hk
      simp only [separatorsOf, Function.update_self, Option.map_some, Option.some.injEq]
      exact ⟨fun hs => ⟨0, Nat.zero_lt_one, insertSlot_zero .., by simp [Node.setSeparator, hs]⟩,
        fun ⟨i, hi, _, hs⟩ => by
          obtain rfl : i = 0 := by omega
          simpa [Node.setSeparator] using hs⟩
    · simp only [separatorsOf, Function.update_of_ne hk, Option.map_none, reduceCtorEq,
        false_iff]
      rintro ⟨i, hi, hKey, _⟩
      obtain rfl : i = 0 := by omega
      rw [insertSlot_zero] at hKey
      exact hk hKey.symm
  have hIndex : (n.setSeparator 0 (some left)).index m = 0 := by
    unfold Node.index lowerBound
    rw [show (n.setSeparator 0 (some left)).size = 0 from hSize]
    rfl
  rw [separatorsOf_update]
  have hInsert := hZero.insertSeparator hm (by
    rw [separatorsOf_eq_none, Function.update_of_ne (ne_of_gt hm)]) (some q)
  rwa [hIndex] at hInsert

/-- `createNewRoot` puts a root over the old one and its sibling. -/
theorem createNewRoot (h : Rep L t a) (hValid : a.Valid) (hSplit : a.RootSplit q m) :
    Rep L (t.createNewRoot a.root (some q) m) (a.grow q m) := by
  have hTwo := L.two_le_maxKeys
  obtain ⟨hCount, hRoot, hHeight, hNew, hOther⟩ := t.createNewRoot_nodes a.root q
    (by rw [h.count]; exact Nat.ne_of_lt hValid.root_lt)
    (by rw [h.count]; exact Nat.ne_of_lt hSplit.lt) m
  refine ⟨?_, ?_, ?_, fun x hx => ?_⟩
  · rw [hCount, h.count]; rfl
  · rw [hRoot, h.count]; rfl
  · rw [hHeight, AbstractTree.grow_root, AbstractTree.grow_new, UInt8.toNat_add, h.height]
    simp
  · by_cases hxn : x = a.count
    · subst hxn
      rw [← h.count, hNew, h.count, AbstractTree.grow_new]
      have hLeaf := (h.nodes a.root hValid.root_lt).isLeaf_iff
      exact
        { nodeType := by
            show (if (t.nodes a.root).isLeaf = true then NodeType.branch else .inner) = _
            cases hLevel : (a.nodes a.root).level with
            | zero => rw [if_pos (hLeaf.mpr hLevel)]; rfl
            | succ l => rw [if_neg (by rw [hLeaf, hLevel]; omega)]; rfl
          highKey := rfl
          rightSibling := rfl
          parent := rfl
          holds := fun hZero => absurd hZero (Nat.succ_ne_zero _)
          routes := fun _ => ⟨newRoot_routes _ rfl a.root hSplit.bot_lt,
            by show 0 + 1 ≤ L.maxKeys; omega⟩ }
    · have hxc : x < a.count := by rw [AbstractTree.grow_count] at hx; omega
      rw [hOther x (by rw [h.count]; exact hxn), AbstractTree.grow_other hxn, h.count]
      by_cases hOver : x = a.root ∨ x = q
      · rw [if_pos hOver, if_pos hOver]
        exact (h.nodes x hxc).setParent (some a.count)
      · rw [if_neg hOver, if_neg hOver]
        exact h.nodes x hxc

/-- The freshly constructed tree is one empty leaf. -/
theorem construct (L : Layout K V) (memory : Nat → Node K V) :
    Rep L (Tree.construct memory)
      { count := 1
        root := 0
        nodes := fun _ => ⟨0, ⊥, ⊤, none, none, fun _ => none, fun _ => none⟩ } := by
  refine ⟨rfl, rfl, rfl, fun x hx => ?_⟩
  obtain rfl : x = 0 := by
    have : x < 1 := hx
    omega
  refine ⟨rfl, rfl, rfl, rfl, fun _ => ⟨⟨?_, ?_⟩, Nat.zero_le _⟩, fun hPos => absurd hPos (by simp)⟩
  · exact fun i j hij hj => absurd hj (Nat.not_lt_zero _)
  · exact fun k v => ⟨fun hSome => absurd hSome (by simp),
      fun ⟨i, hi, _⟩ => absurd hi (Nat.not_lt_zero _)⟩

end Rep

end MxTasking.BLinkTree
