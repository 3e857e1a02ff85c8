import Mathlib.Combinatorics.Enumerative.DoubleCounting
import Mathlib.Data.Set.Card
import Mathlib.Data.Set.Finite.Lattice
import MxTasking.BLinkTree.Predictions

/-!
# How full the nodes are

A node is split when it is full, and a split leaves at least half of what fits on either side.
Nothing is ever taken out of a node, so every node but the root stays half full, and the number of
levels is bounded by the logarithm of the number of keys.  The height is kept in 8 bits
(`b_link_tree.h`); with the layout of the benchmark it never gets above 13.

## Main results

* `execute_fill` — what an execution does to the number of keys of the nodes.
* `occupied_of_run` — every node but the root is half full, over every run.
* `height_of_run` — the number of levels and the number of keys of the map.
-/

namespace MxTasking.BLinkTree

open AbstractTree
open MxTasking.Verified.Slots

variable {K V : Type*}

/-- The node has half the keys that fit. -/
def Node.HalfFull (L : Layout K V) (n : Node K V) : Prop :=
  (if n.isLeaf then L.maxItems else L.maxKeys) / 2 ≤ n.size

/-- Every node but the root is half full, and an inner node that is the root has a key. -/
structure Tree.Occupied (L : Layout K V) (t : Tree K V) : Prop where
  half_full : ∀ p, p < t.count → t.root ≠ some p → (t.nodes p).HalfFull L
  root_pos : ∀ p, t.root = some p → (t.nodes p).isInner = true → 1 ≤ (t.nodes p).size

/-! ## What an execution does to the sizes -/

/-- No node loses a key. -/
structure Tree.SameFill (t t' : Tree K V) : Prop where
  count : t'.count = t.count
  root : t'.root = t.root
  kind : ∀ q, (t'.nodes q).nodeType = (t.nodes q).nodeType
  size : ∀ q, (t.nodes q).size ≤ (t'.nodes q).size

/-- Both halves of a split are half full. -/
structure Tree.SplitFill (L : Layout K V) (t t' : Tree K V) (p : Nat) : Prop where
  count : t'.count = t.count + 1
  root : t'.root = t.root
  left : (t'.nodes p).HalfFull L
  right : (t'.nodes t.count).HalfFull L
  kind : ∀ q, q ≠ p → q ≠ t.count → (t'.nodes q).nodeType = (t.nodes q).nodeType
  size : ∀ q, q ≠ p → q ≠ t.count → (t'.nodes q).size = (t.nodes q).size

theorem Node.isLeaf_congr {n n' : Node K V} (h : n'.nodeType = n.nodeType) :
    n'.isLeaf = n.isLeaf := by
  rw [Node.isLeaf, Node.isLeaf, h]

theorem Node.HalfFull.mono {L : Layout K V} {n n' : Node K V} (h : n.HalfFull L)
    (hKind : n'.nodeType = n.nodeType) (hSize : n.size ≤ n'.size) : n'.HalfFull L := by
  unfold HalfFull
  rw [Node.isLeaf_congr hKind]
  exact le_trans h hSize

theorem Node.HalfFull.pos {L : Layout K V} {n : Node K V} (h : n.HalfFull L) : 1 ≤ n.size := by
  have hItems := L.two_le_maxItems
  have hKeys := L.two_le_maxKeys
  unfold HalfFull at h
  split at h
  · omega
  · omega

section Executions

variable {L : Layout K V} {t t' : Tree K V} {p : Nat} {key : K}
  {value : V}

theorem Node.halfFull_of_leaf {n : Node K V} (hLeaf : n.isLeaf = true)
    (hSize : L.maxItems / 2 ≤ n.size) : n.HalfFull L := by
  rw [Node.HalfFull, if_pos hLeaf]
  exact hSize

theorem Node.halfFull_of_inner {n : Node K V} (hInner : n.isLeaf = false)
    (hSize : L.maxKeys / 2 ≤ n.size) : n.HalfFull L := by
  rw [Node.HalfFull, if_neg (by simp [hInner])]
  exact hSize

namespace Tree

theorem SameFill.refl (t : Tree K V) : t.SameFill t := ⟨rfl, rfl, fun _ => rfl, fun _ => le_rfl⟩

theorem SameFill.write {n : Node K V} (hKind : n.nodeType = (t.nodes p).nodeType)
    (hSize : (t.nodes p).size ≤ n.size) : t.SameFill (t.write p n) := by
  refine ⟨rfl, rfl, fun q => ?_, fun q => ?_⟩
  · by_cases hEq : q = p
    · subst hEq
      rw [write_self]
      exact hKind
    · rw [write_of_ne _ _ hEq]
  · by_cases hEq : q = p
    · subst hEq
      rw [write_self]
      exact hSize
    · rw [write_of_ne _ _ hEq]

/-- Parent links do not count. -/
theorem setParent_fill (t : Tree K V) (node parent : Ptr) (q : Nat) :
    ((t.setParent node parent).nodes q).nodeType = (t.nodes q).nodeType ∧
      ((t.setParent node parent).nodes q).size = (t.nodes q).size := by
  by_cases hNode : node = some q
  · rw [hNode, setParent_self]
    exact ⟨rfl, rfl⟩
  · rw [setParent_of_ne _ _ hNode]
    exact ⟨rfl, rfl⟩

theorem SameFill.setParent (h : t.SameFill t') (node parent : Ptr) :
    t.SameFill (t'.setParent node parent) := by
  refine ⟨by rw [setParent_count]; exact h.count, by rw [setParent_root]; exact h.root,
    fun q => ?_, fun q => ?_⟩
  · rw [(setParent_fill t' node parent q).1]
    exact h.kind q
  · rw [(setParent_fill t' node parent q).2]
    exact h.size q

theorem Occupied.sameFill (h : t.Occupied L) (hFill : t.SameFill t') : t'.Occupied L := by
  refine ⟨fun q hq hNotRoot => ?_, fun q hRoot hInner => ?_⟩
  · rw [hFill.count] at hq
    rw [hFill.root] at hNotRoot
    exact (h.half_full q hq hNotRoot).mono (hFill.kind q) (hFill.size q)
  · rw [hFill.root] at hRoot
    rw [Node.isInner_congr (hFill.kind q)] at hInner
    exact le_trans (h.root_pos q hRoot hInner) (hFill.size q)

/-- After a split every node but the root, or the root if it was split, is half full. -/
theorem SplitFill.half_full (hFill : t.SplitFill L t' p) (h : t.Occupied L) {q : Nat}
    (hq : q < t'.count) (hRoot : t.root = some q → q = p) : (t'.nodes q).HalfFull L := by
  rw [hFill.count] at hq
  by_cases hLeft : q = p
  · rw [hLeft]
    exact hFill.left
  by_cases hRight : q = t.count
  · rw [hRight]
    exact hFill.right
  · exact (h.half_full q (by omega) fun hIs => hLeft (hRoot hIs)).mono
      (hFill.kind q hLeft hRight) (hFill.size q hLeft hRight).ge

theorem Occupied.split (h : t.Occupied L) (hFill : t.SplitFill L t' p) : t'.Occupied L := by
  refine ⟨fun q hq hNotRoot => ?_, fun q hRoot hInner => ?_⟩
  · rw [hFill.root] at hNotRoot
    exact hFill.half_full h hq fun hIs => absurd hIs hNotRoot
  · rw [hFill.root] at hRoot
    by_cases hLeft : q = p
    · rw [hLeft]
      exact hFill.left.pos
    by_cases hRight : q = t.count
    · rw [hRight]
      exact hFill.right.pos
    · rw [Node.isInner_congr (hFill.kind q hLeft hRight)] at hInner
      rw [hFill.size q hLeft hRight]
      exact h.root_pos q hRoot hInner

end Tree

variable [LinearOrder K]

theorem Node.distributeLeaf_half (leaf new : Node K V) (key : K) (value : V) :
    L.maxItems / 2 ≤ (leaf.distributeLeaf L new key value).1.size ∧
      L.maxItems / 2 ≤ (leaf.distributeLeaf L new key value).2.size := by
  unfold Node.distributeLeaf
  dsimp only
  split
  · simp only [Node.insertValue]
    omega
  · simp only [Node.insertValue]
    omega

theorem Node.distributeInner_half (node new : Node K V) (key : K) (separator : Ptr) :
    L.maxKeys / 2 ≤ (node.distributeInner L new key separator).1.size ∧
      L.maxKeys / 2 ≤ (node.distributeInner L new key separator).2.1.size := by
  have hTwo := L.two_le_maxKeys
  unfold Node.distributeInner
  dsimp only
  split
  · simp only [Node.insertSeparator]
    omega
  split
  · dsimp only
    omega
  · simp only [Node.insertSeparator]
    omega

variable [BoundedOrder K]

/-- What one execution does: keys go into nodes, or a node is split, or a node without a parent
is split and a new root is put over the halves. -/
def Tree.ExecuteFill (L : Layout K V) (t t' : Tree K V) : Prop :=
  t.SameFill t' ∨ (∃ p, p < t.count ∧ t.SplitFill L t' p) ∨
    ∃ p t₁ key, p < t.count ∧ (t.nodes p).parent = none ∧ t.SplitFill L t₁ p ∧
      t' = t₁.createNewRoot p (some t.count) key

namespace Tree

theorem splitLeaf_fill (hp : p < t.count) (hLeaf : (t.nodes p).isLeaf = true) (key : K)
    (value : V) : t.SplitFill L (t.splitLeaf L p key value).1 p := by
  have hType : (t.nodes p).nodeType = .leaf := by simpa [Node.isLeaf] using hLeaf
  obtain ⟨_, hAt, hOthers⟩ := t.splitLeaf_splitAt (L := L) (Nat.ne_of_lt hp) hType key value
  obtain ⟨hLeft, hRight⟩ := Node.distributeLeaf_header (L := L)
    (n := { t.nodes p with rightSibling := some t.count }) hLeaf key value (t.freshSibling p)
  obtain ⟨hLeftSize, hRightSize⟩ := Node.distributeLeaf_half (L := L)
    ({ t.nodes p with rightSibling := some t.count } : Node K V) (t.freshSibling p) key value
  refine ⟨hAt.count, hAt.root, ?_, ?_, fun q hq hNew => ?_, fun q hq hNew => ?_⟩
  · rw [hAt.left]
    exact Node.halfFull_of_leaf ((Node.isLeaf_congr hLeft.nodeType).trans hLeaf) hLeftSize
  · rw [hAt.right]
    exact Node.halfFull_of_leaf ((Node.isLeaf_congr hRight.nodeType).trans hLeaf) hRightSize
  · rw [hOthers q hq hNew]
  · rw [hOthers q hq hNew]

theorem splitInner_fill {separator : Nat} (hp : p < t.count)
    (hInner : (t.nodes p).isInner = true) (hSeparator : separator < t.count)
    (hSelf : separator ≠ p) (key : K) :
    t.SplitFill L (t.splitInner L p key (some separator)).1 p := by
  have hType : (t.nodes p).nodeType ≠ .leaf := by
    intro hLeaf
    simp [Node.isInner, hLeaf] at hInner
  have hNotLeaf : (t.nodes p).isLeaf = false := by simpa [Node.isLeaf] using hType
  obtain ⟨t₃, hResult, hAt, hOthers⟩ := t.splitInner_parts (L := L) (Nat.ne_of_lt hp) hType key
    (some separator) (by simpa using Nat.ne_of_lt hSeparator) (by simpa using hSelf)
  obtain ⟨hLeft, hRight⟩ := Node.distributeInner_header (L := L) hNotLeaf key (some separator)
    ({ t.freshSibling p with rightSibling := none } : Node K V)
  obtain ⟨hLeftSize, hRightSize⟩ := Node.distributeInner_half (L := L) (t.nodes p)
    ({ t.freshSibling p with rightSibling := none } : Node K V) key (some separator)
  have hAdopt : ∀ n q, ((t₃.adopt n t.count).nodes q).nodeType = (t₃.nodes q).nodeType ∧
      ((t₃.adopt n t.count).nodes q).size = (t₃.nodes q).size := by
    intro n q
    obtain ⟨parent, hEq⟩ := t₃.adopt_fields n t.count q
    rw [hEq]
    exact ⟨rfl, rfl⟩
  have hOther : ∀ q, q ≠ p → q ≠ t.count → (t₃.nodes q).nodeType = (t.nodes q).nodeType ∧
      (t₃.nodes q).size = (t.nodes q).size := by
    intro q hq hNew
    rw [hOthers q hq hNew]
    split
    · exact ⟨rfl, rfl⟩
    · exact ⟨rfl, rfl⟩
  rw [hResult]
  refine ⟨?_, ?_, ?_, ?_, fun q hq hNew => ?_, fun q hq hNew => ?_⟩
  · rw [(t₃.adopt_frame _ _).1, hAt.count]
  · rw [(t₃.adopt_frame _ _).2.1, hAt.root]
  · have hHalf : (t₃.nodes p).HalfFull L := by
      rw [hAt.left]
      exact Node.halfFull_of_inner ((Node.isLeaf_congr hLeft.nodeType).trans hNotLeaf) hLeftSize
    exact hHalf.mono (hAdopt _ p).1 (hAdopt _ p).2.ge
  · have hHalf : (t₃.nodes t.count).HalfFull L := by
      rw [hAt.right]
      exact Node.halfFull_of_inner ((Node.isLeaf_congr hRight.nodeType).trans hNotLeaf) hRightSize
    exact hHalf.mono (hAdopt _ t.count).1 (hAdopt _ t.count).2.ge
  · exact (hAdopt _ q).1.trans (hOther q hq hNew).1
  · exact (hAdopt _ q).2.trans (hOther q hq hNew).2

end Tree

variable {a : AbstractTree K V} {task : Task K V} (coreId : Nat)

theorem insertValueExecute_fill (hp : p < t.count) :
    t.ExecuteFill L (insertValueExecute L coreId t task key value p).tree := by
  unfold insertValueExecute
  by_cases hle : (t.nodes p).highKey ≤ key
  · rw [if_pos hle]
    exact Or.inl (.refl t)
  by_cases hInner : (t.nodes p).isInner = true
  · rw [if_neg hle, if_pos hInner]
    exact Or.inl (.refl t)
  have hLeaf := Node.isLeaf_of_not_isInner hInner
  rw [if_neg hle, if_neg hInner]
  by_cases hReads : ((t.nodes p).isLeaf && task.isReadonly) = true
  · rw [if_pos hReads]
    exact Or.inl (.refl t)
  rw [if_neg hReads]
  dsimp only
  split
  · exact Or.inl (.refl t)
  split
  · exact Or.inl (.write rfl (Nat.le_succ _))
  have hFill := Tree.splitLeaf_fill (L := L) hp hLeaf key value
  obtain ⟨_, hParent⟩ := Tree.splitLeaf_outline (L := L) hp hLeaf key value
  split
  · exact Or.inr (Or.inl ⟨p, hp, hFill⟩)
  · rename_i hNone
    exact Or.inr (Or.inr ⟨p, _, _, hp, hParent.symm.trans hNone, hFill, rfl⟩)

theorem insertSeparatorExecute_fill [Zero V] {separator : Ptr} (hRep : Rep L t a)
    (hValid : a.Valid) (hTask : TaskOK a task)
    (hUnposted : ∀ q, task.carried = some q → a.Unposted q)
    (hBody : task.body = .insertSeparator key separator)
    (hAnn : task.annotatedResource = some p) :
    t.ExecuteFill L (insertSeparatorExecute L coreId t task key separator p).tree := by
  unfold insertSeparatorExecute
  by_cases hle : (t.nodes p).highKey ≤ key
  · rw [if_pos hle]
    exact Or.inl (.refl t)
  rw [if_neg hle]
  dsimp only
  by_cases hFull : (t.nodes p).full L = false
  · rw [if_pos hFull]
    left
    apply Tree.SameFill.setParent
    exact .write rfl (Nat.le_succ _)
  rw [if_neg hFull]
  obtain ⟨_, q, _, rfl, _⟩ := hTask.separator key separator hBody
  have hFits := hTask.fits hRep hBody hAnn hle
  have hNew := (hUnposted q (by simp [Task.carried, hBody])).2.2
  have hNode := hRep.nodes p hFits.lt
  have hPos : 0 < (a.nodes p).level := by
    have := hFits.level_eq
    omega
  have hp : p < t.count := by rw [hRep.count]; exact hFits.lt
  have hFill := Tree.splitInner_fill (L := L) hp (hNode.isInner_iff.mpr hPos)
    (by rw [hRep.count]; exact hFits.child_lt) hFits.ne key
  have hParent := hRep.splitInner_parent hValid hFits hNew
    ((hNode.full_inner hPos).2 (by simpa using hFull))
  split
  · exact Or.inr (Or.inl ⟨p, hp, hFill⟩)
  · rename_i hNone
    exact Or.inr (Or.inr ⟨p, _, _, hp, hParent.symm.trans hNone, hFill, rfl⟩)

theorem lookupExecute_fill :
    t.ExecuteFill L (lookupExecute L coreId t task key value p).tree := by
  unfold lookupExecute
  dsimp only
  split
  · exact Or.inl (.refl t)
  split
  · exact Or.inl (.refl t)
  · exact Or.inl (.refl t)

theorem updateExecute_fill :
    t.ExecuteFill L (updateExecute L coreId t task key value p).tree := by
  unfold updateExecute
  dsimp only
  split
  · exact Or.inl (.refl t)
  split
  · exact Or.inl (.refl t)
  split
  · exact Or.inl (.refl t)
  split
  · exact Or.inl (.write rfl le_rfl)
  · exact Or.inl (.refl t)

theorem execute_fill [Zero V] {ex : Execution K V} (hRep : Rep L t a) (hValid : a.Valid)
    (hTask : TaskOK a task) (hUnposted : ∀ q, task.carried = some q → a.Unposted q)
    (hEx : task.execute L coreId t = some ex) : t.ExecuteFill L ex.tree := by
  obtain ⟨p, hAnn, hp, _⟩ := hTask.annotated
  rw [← hRep.count] at hp
  unfold Task.execute at hEx
  rw [hAnn] at hEx
  simp only [Option.some.injEq] at hEx
  subst hEx
  cases hBody : task.body with
  | insertValue key value => exact insertValueExecute_fill coreId hp
  | insertSeparator key separator =>
      exact insertSeparatorExecute_fill coreId hRep hValid hTask hUnposted hBody hAnn
  | lookup key value core => exact lookupExecute_fill coreId
  | update key value => exact updateExecute_fill coreId

namespace Tree

/-- The halves of the old root are half full, and the new root has one key. -/
theorem Occupied.grow {t₁ : Tree K V} (h : t.Occupied L) (hp : p < t.count)
    (hRoot : t.root = some p) (hFill : t.SplitFill L t₁ p) (key : K) :
    (t₁.createNewRoot p (some t.count) key).Occupied L := by
  have hCount := hFill.count
  obtain ⟨hCount', hRoot', _, hNew, hOthers⟩ :=
    t₁.createNewRoot_nodes p t.count (by omega) (by omega) key
  refine ⟨fun q hq hNotRoot => ?_, fun q hIs _ => ?_⟩
  · rw [hCount'] at hq
    rw [hRoot', Ne, Option.some.injEq] at hNotRoot
    have hHalf := hFill.half_full h (q := q) (by omega) fun hIs =>
      Option.some.inj (hIs.symm.trans hRoot)
    rw [hOthers q (Ne.symm hNotRoot)]
    split
    · exact hHalf.mono rfl le_rfl
    · exact hHalf
  · rw [hRoot', Option.some.injEq] at hIs
    rw [← hIs, hNew]
    exact Nat.le_refl 1

/-- One execution; only the root has no parent. -/
theorem Occupied.execute (h : t.Occupied L) (hRep : Rep L t a) (hRootOnly : a.RootOnly)
    (hFill : t.ExecuteFill L t') : t'.Occupied L := by
  rcases hFill with hSame | ⟨p, _, hSplit⟩ | ⟨p, t₁, key, hp, hParent, hSplit, rfl⟩
  · exact h.sameFill hSame
  · exact h.split hSplit
  · have hpLt : p < a.count := by rw [← hRep.count]; exact hp
    rw [(hRep.nodes p hpLt).parent] at hParent
    refine h.grow hp ?_ hSplit key
    rw [hRep.root, (hRootOnly p hpLt).mp hParent]

theorem Occupied.construct (memory : Nat → Node K V) : (Tree.construct memory).Occupied L := by
  refine ⟨fun p hp hNotRoot => ?_, fun p hRoot hInner => ?_⟩
  · obtain rfl : p = 0 := Nat.lt_one_iff.mp hp
    exact absurd rfl hNotRoot
  · obtain rfl : 0 = p := Option.some.inj hRoot
    exact absurd hInner (by simp [Tree.construct, Tree.createNode, Tree.write, Node.isInner])

end Tree

end Executions

/-! ## Levels -/

/-- The number of keys a tree with `top` levels above the leaves has at least. -/
def Layout.leastKeys (L : Layout K V) (top : Nat) : Nat :=
  if top = 0 then 0 else 2 * (L.maxKeys / 2 + 1) ^ (top - 1) * (L.maxItems / 2)

theorem Layout.leastKeys_mono (L : Layout K V) {top top' : Nat} (h : top ≤ top') :
    L.leastKeys top ≤ L.leastKeys top' := by
  unfold Layout.leastKeys
  split
  · exact Nat.zero_le _
  rw [if_neg (by omega)]
  refine Nat.mul_le_mul_right _ (Nat.mul_le_mul_left 2 ?_)
  exact Nat.pow_le_pow_right (Nat.succ_pos _) (Nat.sub_le_sub_right h 1)

section Levels

variable [LinearOrder K] [BoundedOrder K] {L : Layout K V} {t : Tree K V} {a : AbstractTree K V}

open Classical in
/-- A level has as many nodes as the one above has separators, or more. -/
theorem Rep.level_card (h : Rep L t a) (hValid : a.Valid) {l n : Nat}
    (hSize : ∀ p, p < a.count → (a.nodes p).level = l + 1 → n ≤ (t.nodes p).size) :
    (a.levelSet (l + 1)).card * (n + 1) ≤ (a.levelSet l).card := by
  have hCard := Finset.card_mul_le_card_mul (s := a.levelSet (l + 1)) (t := a.levelSet l)
    (fun p q => (a.nodes p).child (a.nodes q).low = some q) (m := n + 1) (n := 1) ?_ ?_
  · rwa [Nat.mul_one] at hCard
  · intro p hp
    obtain ⟨hp, hLevel⟩ := mem_levelSet.mp hp
    have hPos : 0 < (a.nodes p).level := by omega
    have hInner := (h.nodes p hp).isInner_iff.mpr hPos
    have hn := hSize p hp hLevel
    have hSep : ∀ i, i ≤ n → ∃ q, (t.nodes p).separators i = some q ∧ q < a.count ∧
        (a.nodes q).level + 1 = (a.nodes p).level ∧ (a.nodes p).child (a.nodes q).low = some q := by
      intro i hi
      obtain ⟨q, hAt, hq, hqLevel, _, hChild⟩ :=
        h.separator_spec hValid hp hPos (i := i) (by omega)
      exact ⟨q, hAt, hq, hqLevel, hChild⟩
    rw [← Finset.card_range (n + 1)]
    refine Finset.card_le_card_of_injOn (fun i => ((t.nodes p).separators i).getD 0) ?_ ?_
    · intro i hi
      obtain ⟨q, hAt, hq, hqLevel, hChild⟩ := hSep i (by simpa [Nat.lt_succ_iff] using hi)
      simp only [hAt, Option.getD_some, Finset.coe_filter, Finset.bipartiteAbove]
      exact ⟨mem_levelSet.mpr ⟨hq, by omega⟩, hChild⟩
    · intro i hi j hj hEq
      obtain ⟨q, hAt, _⟩ := hSep i (by simpa [Nat.lt_succ_iff] using hi)
      obtain ⟨r, hAt', _⟩ := hSep j (by simpa [Nat.lt_succ_iff] using hj)
      simp only [hAt, hAt', Option.getD_some] at hEq
      subst hEq
      have hCount : p < t.count := by rw [h.count]; exact hp
      exact (h.separatorAt_unique hValid
        ⟨hCount, hInner, le_trans (by simpa [Nat.lt_succ_iff] using hi) hn, hAt⟩
        ⟨hCount, hInner, le_trans (by simpa [Nat.lt_succ_iff] using hj) hn, hAt'⟩).2
  · intro q _
    refine Finset.card_le_one.mpr fun p hp r hr => ?_
    obtain ⟨hp, hChild⟩ := Finset.mem_filter.mp hp
    obtain ⟨hr, hChild'⟩ := Finset.mem_filter.mp hr
    have hParent := (hValid.child_some p (mem_levelSet.mp hp).1 _ q hChild).2.2.2.1
    have hParent' := (hValid.child_some r (mem_levelSet.mp hr).1 _ q hChild').2.2.2.1
    exact Option.some.inj (hParent.symm.trans hParent')

open Classical in
/-- The leaves have as many keys together as the map. -/
theorem Rep.leaves_card (h : Rep L t a) (hValid : a.Valid) {n : Nat} {keys : Finset K}
    (hSize : ∀ p, p < a.count → (a.nodes p).level = 0 → n ≤ (t.nodes p).size)
    (hKeys : ∀ k v, a.Stores k v → k ∈ keys) : (a.levelSet 0).card * n ≤ keys.card := by
  have hCard := Finset.card_mul_le_card_mul (s := a.levelSet 0) (t := keys)
    (fun p k => (a.nodes p).record k ≠ none) (m := n) (n := 1) ?_ ?_
  · rwa [Nat.mul_one] at hCard
  · intro p hp
    obtain ⟨hp, hLevel⟩ := mem_levelSet.mp hp
    have hHolds := ((h.nodes p hp).holds hLevel).1
    have hn := hSize p hp hLevel
    rw [← Finset.card_range n]
    refine Finset.card_le_card_of_injOn (t.nodes p).keys ?_ ?_
    · intro i hi
      have hGet := hHolds.get (i := i) (lt_of_lt_of_le (by simpa using hi) hn)
      simp only [Finset.coe_filter, Finset.bipartiteAbove]
      exact ⟨hKeys _ _ ⟨p, hp, hGet⟩, by rw [hGet]; exact Option.some_ne_none _⟩
    · intro i hi j hj hEq
      exact hHolds.ascending.inj (lt_of_lt_of_le (by simpa using hi) hn)
        (lt_of_lt_of_le (by simpa using hj) hn) hEq
  · intro k _
    refine Finset.card_le_one.mpr fun p hp q hq => ?_
    obtain ⟨hp, hRecord⟩ := Finset.mem_filter.mp hp
    obtain ⟨hq, hRecord'⟩ := Finset.mem_filter.mp hq
    obtain ⟨v, hv⟩ := Option.ne_none_iff_exists'.mp hRecord
    obtain ⟨v', hv'⟩ := Option.ne_none_iff_exists'.mp hRecord'
    have hp := (mem_levelSet.mp hp)
    have hq := (mem_levelSet.mp hq)
    exact hValid.owner_unique hp.1 hq.1 (hp.2.trans hq.2.symm)
      (hValid.record_some p hp.1 k v hv).2 (hValid.record_some q hq.1 k v' hv').2

theorem Rep.leastKeys_le (h : Rep L t a) (hValid : a.Valid) (hRootOnly : a.RootOnly)
    (hOccupied : t.Occupied L) {keys : Finset K} (hKeys : ∀ k v, a.Stores k v → k ∈ keys) :
    L.leastKeys (a.nodes a.root).level ≤ keys.card := by
  unfold Layout.leastKeys
  split
  · exact Nat.zero_le _
  rename_i hTop
  obtain ⟨top, hTop⟩ := Nat.exists_eq_succ_of_ne_zero hTop
  have hRoot := hValid.root_lt
  -- below the root every node is half full
  have hHalf : ∀ p, p < a.count → (a.nodes p).level ≤ top → (t.nodes p).HalfFull L := by
    intro p hp hLevel
    refine hOccupied.half_full p (by rw [h.count]; exact hp) fun hIs => ?_
    rw [h.root, Option.some.injEq] at hIs
    rw [← hIs] at hLevel
    omega
  have hInner : ∀ l, l < top →
      (a.levelSet (l + 1)).card * (L.maxKeys / 2 + 1) ≤ (a.levelSet l).card := by
    intro l hl
    refine h.level_card hValid fun p hp hLevel => ?_
    have hp' := hHalf p hp (by omega)
    rwa [Node.HalfFull, if_neg (by rw [(h.nodes p hp).isLeaf_iff]; omega)] at hp'
  have hBelowRoot : 2 ≤ (a.levelSet top).card := by
    have hLevel := h.level_card hValid (l := top) (n := 1) fun p hp hLevel => by
      rw [hValid.eq_root_of_level hRootOnly hp (by omega)]
      exact hOccupied.root_pos a.root h.root ((h.nodes a.root hRoot).isInner_iff.mpr (by omega))
    have hOne : 1 ≤ (a.levelSet (top + 1)).card :=
      Finset.card_pos.mpr ⟨a.root, mem_levelSet.mpr ⟨hRoot, hTop⟩⟩
    omega
  have hLeaves := h.leaves_card hValid (n := L.maxItems / 2) (fun p hp hLevel => by
    have hp' := hHalf p hp (by omega)
    rwa [Node.HalfFull, if_pos ((h.nodes p hp).isLeaf_iff.mpr hLevel)] at hp') hKeys
  have hPow := Verified.pow_mul_le_of_levels (f := fun l => (a.levelSet l).card) hInner
  calc 2 * (L.maxKeys / 2 + 1) ^ ((a.nodes a.root).level - 1) * (L.maxItems / 2)
      = 2 * (L.maxKeys / 2 + 1) ^ top * (L.maxItems / 2) := by rw [hTop, Nat.succ_sub_one]
    _ ≤ (a.levelSet top).card * (L.maxKeys / 2 + 1) ^ top * (L.maxItems / 2) :=
        Nat.mul_le_mul_right _ (Nat.mul_le_mul_right _ hBelowRoot)
    _ ≤ (a.levelSet 0).card * (L.maxItems / 2) :=
        Nat.mul_le_mul_right _ hPow
    _ ≤ keys.card := hLeaves

end Levels

section Runs

variable [LinearOrder K]

/-- A log stores finitely many keys. -/
theorem mapAfter_finite (log : List (Event K V)) : {k | mapAfter log k ≠ none}.Finite := by
  induction log using List.reverseRecOn with
  | nil => simp [mapAfter]
  | append_singleton log e ih =>
      rw [mapAfter_snoc]
      rcases e.mapOp with _ | ⟨key, value⟩ | key | ⟨key, value⟩
      · exact ih
      · refine (ih.insert key).subset fun k hk => ?_
        by_cases hEq : k = key
        · exact Or.inl hEq
        · refine Or.inr fun hNone => hk ?_
          simp only [Option.elim, MapOp.apply]
          split
          · rwa [Function.update_of_ne hEq]
          · exact hNone
      · exact ih
      · refine ih.subset fun k hk hNone => hk ?_
        simp only [Option.elim, MapOp.apply]
        split
        · exact hNone
        · rename_i hSome
          rwa [Function.update_of_ne (by rintro rfl; exact hSome hNone)]

variable [BoundedOrder K] [Nontrivial K] [Zero V]

theorem Tree.Occupied.run {L : Layout K V} {memory : Nat → Node K V} {log : List (Event K V)}
    {s : State K V} (hRun : Verified.Run (Step L) (State.initial memory) log s) :
    s.tree.Occupied L := by
  obtain ⟨_, s', hRun', rfl, _⟩ := run_traced hRun
  refine (hRun'.invariant (P := fun s => (∃ a, TracedInv L s a) ∧ s.tree.Occupied L) ?_ ?_).2
  · exact ⟨TracedInv.run Verified.Run.nil, .construct memory⟩
  · rintro e mid fin ⟨⟨a, hInv⟩, hOccupied⟩ hStep
    refine ⟨hInv.step hStep, ?_⟩
    cases hStep with
    | spawn request isReadonly hRequest => exact hOccupied
    | @execute coreId r task rest ex hTasks hEx =>
        have hIn : (r, task) ∈ mid.tasks := by rw [hTasks]; exact Multiset.mem_cons_self _ _
        show ex.tree.Occupied L
        by_cases hKey : task.body.key < ⊤
        · obtain ⟨hTask, hUnposted⟩ := hInv.ok hIn hKey
          exact hOccupied.execute hInv.inv.rep hInv.inv.rootOnly
            (execute_fill coreId hInv.inv.rep hInv.inv.valid hTask hUnposted hEx)
        · obtain ⟨_, _, rfl⟩ := execute_top hEx (not_lt_top_iff.mp hKey)
          exact hOccupied

/-- In every state of every run every node but the root is half full. -/
theorem occupied_of_run (L : Layout K V) (memory : Nat → Node K V) (log : List (Event K V))
    (s : State K V) (hRun : Verified.Run (Step L) (State.initial memory) log s) :
    s.tree.Occupied L :=
  .run hRun

/-- After two splits of leaves and one of the root. -/
theorem occupied_of_run_threeLevels :
    ∃ log s, Verified.Run (Step Layout.smallest) (State.initial zeroMemory) log s ∧
      s.tree.count = 7 ∧ s.tree.Occupied Layout.smallest :=
  ⟨_, _, run_threeLevels.of_guarded, by decide, occupied_of_run _ _ _ _ run_threeLevels.of_guarded⟩

/-- The levels and the keys after every run; the height counts the levels modulo 256. -/
theorem levels_of_run {L : Layout K V} {memory : Nat → Node K V} {log : List (Event K V)}
    {s : State K V} (hRun : Verified.Run (Step L) (State.initial memory) log s) :
    ∃ top level low, Structured L s.tree top level low ∧
      (∃ root, s.tree.root = some root ∧ level root = top) ∧
      L.leastKeys top ≤ {k | mapAfter log k ≠ none}.ncard ∧
      s.tree.height.toNat = (top + 1) % 256 := by
  obtain ⟨a, hRep, hValid, hRootOnly, hContains, _⟩ := Rep.of_run hRun
  have hFinite := mapAfter_finite log
  refine ⟨_, _, _, hRep.structured hValid, ⟨a.root, hRep.root, rfl⟩, ?_, hRep.height⟩
  rw [Set.ncard_eq_toFinset_card _ hFinite]
  refine hRep.leastKeys_le hValid hRootOnly (.run hRun) fun k v hStores => ?_
  rw [Set.Finite.mem_toFinset, Set.mem_ofPred_eq, (hContains k v).mp hStores]
  exact Option.some_ne_none v

/-- In every state of every run the number of levels is bounded by the number of keys in the map,
and the height is the number of levels as long as that bound is below 256. -/
theorem height_of_run (L : Layout K V) (memory : Nat → Node K V) (log : List (Event K V))
    (s : State K V) (hRun : Verified.Run (Step L) (State.initial memory) log s) :
    ∃ top level low, Structured L s.tree top level low ∧
      (∃ root, s.tree.root = some root ∧ level root = top) ∧
      L.leastKeys top ≤ {k | mapAfter log k ≠ none}.ncard ∧
      ({k | mapAfter log k ≠ none}.ncard < L.leastKeys 255 → s.tree.height.toNat = top + 1) := by
  obtain ⟨top, level, low, hStructured, hRoot, hLeast, hHeight⟩ := levels_of_run hRun
  refine ⟨top, level, low, hStructured, hRoot, hLeast, fun hFew => ?_⟩
  have hTop : top < 255 := by
    by_contra hTop
    have hMono := L.leastKeys_mono (not_lt.mp hTop)
    omega
  rw [hHeight, Nat.mod_eq_of_lt (by omega)]

/-- Five keys on three levels, for which four are needed. -/
theorem height_of_run_threeLevels :
    ∃ log s, Verified.Run (Step Layout.smallest) (State.initial zeroMemory) log s ∧
      s.tree.height = 3 ∧ 4 ≤ {k | mapAfter log k ≠ none}.ncard ∧
      ∃ level low, Structured Layout.smallest s.tree 2 level low := by
  obtain ⟨top, level, low, hStructured, _, hLeast, hHeight⟩ :=
    height_of_run _ _ _ _ run_threeLevels.of_guarded
  have hKeys : {k | mapAfter threeLevels.log k ≠ none}.ncard ≤ 2 ^ 64 := by
    refine (Set.ncard_le_card _).trans ?_
    rw [Nat.card_eq_fintype_card, Fintype.card_fin]
  have hBound : 2 ^ 64 < Layout.smallest.leastKeys 255 := by decide
  have hThree : threeLevels.state.tree.height = 3 := by decide
  have hTop := hHeight (lt_of_le_of_lt hKeys hBound)
  rw [hThree] at hTop
  obtain rfl : top = 2 := (Nat.succ.inj hTop).symm
  exact ⟨_, _, run_threeLevels.of_guarded, hThree, hLeast, level, low, hStructured⟩

/-- With 64-bit keys there are 13 levels at most, so the 8 bits of the height are enough. -/
theorem height_benchmark (memory : Nat → Node (Fin (2 ^ 64)) (BitVec 64))
    (log : List (Event (Fin (2 ^ 64)) (BitVec 64))) (s : State (Fin (2 ^ 64)) (BitVec 64))
    (hRun : Verified.Run (Step Layout.benchmark) (State.initial memory) log s) :
    s.tree.height.toNat ≤ 13 ∧ ∃ top level low, Structured Layout.benchmark s.tree top level low ∧
      s.tree.height.toNat = top + 1 := by
  obtain ⟨top, level, low, hStructured, _, hLeast, hHeight⟩ := levels_of_run hRun
  have hKeys : {k | mapAfter log k ≠ none}.ncard ≤ 2 ^ 64 := by
    refine (Set.ncard_le_card _).trans ?_
    rw [Nat.card_eq_fintype_card, Fintype.card_fin]
  have hBound : 2 ^ 64 < Layout.benchmark.leastKeys 13 := by decide
  have hTop : top < 13 := by
    by_contra hTop
    have hMono := Layout.benchmark.leastKeys_mono (not_lt.mp hTop)
    omega
  rw [Nat.mod_eq_of_lt (by omega)] at hHeight
  exact ⟨by omega, top, level, low, hStructured, hHeight⟩

end Runs

end MxTasking.BLinkTree
