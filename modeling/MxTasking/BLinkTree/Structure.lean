import MxTasking.BLinkTree.Linearizability

/-!
# The structure of the tree in memory

What the invariant says about the nodes as they lie in memory, in every state of every
run.  The level of a node and its low bound are not stored; `Structured` says
which functions they are.  They are unique: the low bound is read off the left
neighbour, the level off the first separator (`Structured.level_unique`).

## Main results

* `structure_of_run` — chains, ranges, keys, sizes and separators, and that the nodes without a
  separator are those the tasks in flight carry.
* `parents_of_run` — parent links, the root, where separators go and the height.
-/

namespace MxTasking.BLinkTree

open AbstractTree
open MxTasking.Verified.Slots
open MxTasking.Verified.IntervalChain

variable {K V : Type*} [LinearOrder K] [BoundedOrder K]

/-- The nodes of the tree form the levels `0, …, top`; `level` and `low` are the
level and the low bound of each node. -/
structure Structured (L : Layout K V) (t : Tree K V) (top : Nat) (level : Nat → Nat)
    (low : Nat → K) : Prop where
  level_le : ∀ p, p < t.count → level p ≤ top
  leaf_iff : ∀ p, p < t.count → ((t.nodes p).isLeaf = true ↔ level p = 0)
  inner_iff : ∀ p, p < t.count → ((t.nodes p).isInner = true ↔ 0 < level p)
  low_bound : ∀ p, p < t.count → t.IsLowBound p (low p)
  chain : ∀ l, l ≤ top → ∃ first path, low first = ⊥ ∧
    FollowsFrom (fun p => (t.nodes p).rightSibling) first path ∧ path.Nodup ∧
      ∀ p, p ∈ path ↔ p < t.count ∧ level p = l
  partition : ∀ l, l ≤ top → ∀ k, k < ⊤ →
    ∃! p, (p < t.count ∧ level p = l) ∧ low p ≤ k ∧ k < (t.nodes p).highKey
  link : ∀ p, p < t.count → ∀ q, (t.nodes p).rightSibling = some q →
    q < t.count ∧ level q = level p ∧ low q = (t.nodes p).highKey
  last : ∀ p, p < t.count → ((t.nodes p).rightSibling = none ↔ (t.nodes p).highKey = ⊤)
  ascending : ∀ p, p < t.count → Ascending (t.nodes p).keys (t.nodes p).size
  in_range : ∀ p, p < t.count → ∀ i, i < (t.nodes p).size →
    low p ≤ (t.nodes p).keys i ∧ (t.nodes p).keys i < (t.nodes p).highKey
  leaf_size : ∀ p, p < t.count → (t.nodes p).isLeaf = true → (t.nodes p).size ≤ L.maxItems
  inner_size : ∀ p, p < t.count → (t.nodes p).isInner = true → (t.nodes p).size ≤ L.maxKeys
  separators : ∀ p, p < t.count → (t.nodes p).isInner = true → ∀ i, i ≤ (t.nodes p).size →
    ∃ q, (t.nodes p).separators i = some q ∧ q < t.count ∧ level q + 1 = level p ∧
      low q = (if i = 0 then low p else (t.nodes p).keys (i - 1)) ∧
      ((t.nodes p).isBranch = true → (t.nodes q).isLeaf = true) ∧
      ((t.nodes p).isBranch = false → (t.nodes q).isInner = true)

/-- The level of a node is determined by the tree in memory.  The induction is on the
level: the first separator is one below. -/
theorem Structured.level_unique {L : Layout K V} {t : Tree K V} {top top' : Nat}
    {level level' : Nat → Nat} {low low' : Nat → K} (h : Structured L t top level low)
    (h' : Structured L t top' level' low') :
    ∀ l p, p < t.count → level p = l → level' p = l := by
  intro l
  induction l with
  | zero =>
      intro p hp hLevel
      exact (h'.leaf_iff p hp).mp ((h.leaf_iff p hp).mpr hLevel)
  | succ l ih =>
      intro p hp hLevel
      have hInner := (h.inner_iff p hp).mpr (by omega)
      obtain ⟨q, hSep, hq, hqLevel, _⟩ := h.separators p hp hInner 0 (Nat.zero_le _)
      obtain ⟨q', hSep', _, hqLevel', _⟩ := h'.separators p hp hInner 0 (Nat.zero_le _)
      obtain rfl : q = q' := by simpa [hSep] using hSep'
      have := ih q hq (by omega)
      omega

/-- `q` is a separator of an inner node. -/
def Tree.IsSeparator (t : Tree K V) (q : Nat) : Prop :=
  ∃ p i, p < t.count ∧ (t.nodes p).isInner = true ∧ i ≤ (t.nodes p).size ∧
    (t.nodes p).separators i = some q

section Reading

variable {L : Layout K V} {t : Tree K V} {a a' : AbstractTree K V}

/-- Separator `i` of a represented inner node. -/
theorem Rep.separator_spec (h : Rep L t a) (hValid : a.Valid) {p i : Nat} (hp : p < a.count)
    (hPos : 0 < (a.nodes p).level) (hi : i ≤ (t.nodes p).size) :
    ∃ q, (t.nodes p).separators i = some q ∧ q < a.count ∧
      (a.nodes q).level + 1 = (a.nodes p).level ∧
      (a.nodes q).low = (if i = 0 then (a.nodes p).low else (t.nodes p).keys (i - 1)) ∧
      (a.nodes p).child (a.nodes q).low = some q := by
  obtain ⟨hRoutes, _⟩ := (h.nodes p hp).routes hPos
  have hGet := hRoutes.get (i := i) (by omega)
  obtain ⟨q, hChild, hSep⟩ : ∃ q, (a.nodes p).child (insertSlot (t.nodes p).keys 0
      (a.nodes p).low i) = some q ∧ some q = (t.nodes p).separators i := by
    simpa [separatorsOf] using hGet
  obtain ⟨hq, hLevel, hLow, _⟩ := hValid.child_some p hp _ q hChild
  refine ⟨q, hSep.symm, hq, hLevel, ?_, by rw [hLow]; exact hChild⟩
  rw [hLow]
  cases i with
  | zero => simp
  | succ i => simp

/-- The high key is the top exactly for the last node of a level. -/
theorem AbstractTree.Valid.right_none_iff (h : a.Valid) {p : Nat} (hp : p < a.count) :
    (a.nodes p).right = none ↔ (a.nodes p).high = ⊤ := by
  constructor
  · exact h.right_none p hp
  · intro hTop
    cases hRight : (a.nodes p).right with
    | none => rfl
    | some q =>
        obtain ⟨hq, _, hLow⟩ := h.right_some p hp q hRight
        have hRange := h.range q hq
        rw [hLow, hTop] at hRange
        exact absurd hRange not_top_lt

/-- A represented valid tree is structured. -/
theorem Rep.structured (h : Rep L t a) (hValid : a.Valid) :
    Structured L t (a.nodes a.root).level (fun p => (a.nodes p).level)
      (fun p => (a.nodes p).low) := by
  have hLt : ∀ {p}, p < t.count → p < a.count := fun hp => by rw [← h.count]; exact hp
  have hNext : ∀ p, p < a.count → (t.nodes p).rightSibling = (a.nodes p).right :=
    fun p hp => (h.nodes p hp).rightSibling
  refine
    { level_le := fun p hp => hValid.level_le p (hLt hp)
      leaf_iff := fun p hp => (h.nodes p (hLt hp)).isLeaf_iff
      inner_iff := fun p hp => (h.nodes p (hLt hp)).isInner_iff
      low_bound := fun p hp => (h.isLowBound_iff hValid (hLt hp) _).mpr rfl
      chain := ?_
      partition := ?_
      link := ?_
      last := ?_
      ascending := ?_
      in_range := ?_
      leaf_size := fun p hp hLeaf =>
        ((h.nodes p (hLt hp)).holds ((h.nodes p (hLt hp)).isLeaf_iff.mp hLeaf)).2
      inner_size := fun p hp hInner =>
        ((h.nodes p (hLt hp)).routes ((h.nodes p (hLt hp)).isInner_iff.mp hInner)).2
      separators := ?_ }
  · intro l hl
    obtain ⟨first, path, hFirst, hFollows, hNodup, hMem⟩ := (hValid.tiles hl).chain
    refine ⟨first, path, hFirst, ?_, hNodup, fun p => ?_⟩
    · refine hFollows.congr (fun p hp => ?_)
      exact hNext p (mem_levelSet.mp ((hMem p).mp hp)).1
    · rw [hMem p, mem_levelSet, h.count]
  · intro l hl k hk
    obtain ⟨p, ⟨hp, hRange⟩, hUnique⟩ := (hValid.tiles hl).existsUnique_owner hk
    have hIff : ∀ q, ((q < t.count ∧ (a.nodes q).level = l) ∧ (a.nodes q).low ≤ k ∧
        k < (t.nodes q).highKey) ↔ q ∈ a.levelSet l ∧ (a.nodes q).low ≤ k ∧
          k < (a.nodes q).high := by
      intro q
      rw [mem_levelSet, h.count]
      refine and_congr_right (fun hq => ?_)
      rw [(h.nodes q hq.1).highKey]
    exact ⟨p, (hIff p).mpr ⟨hp, hRange⟩, fun q hq => hUnique q ((hIff q).mp hq)⟩
  · intro p hp q hRight
    rw [hNext p (hLt hp)] at hRight
    rw [(h.nodes p (hLt hp)).highKey, h.count]
    exact hValid.right_some p (hLt hp) q hRight
  · intro p hp
    rw [hNext p (hLt hp), (h.nodes p (hLt hp)).highKey]
    exact hValid.right_none_iff (hLt hp)
  · intro p hp
    have hNode := h.nodes p (hLt hp)
    rcases Nat.eq_zero_or_pos (a.nodes p).level with hZero | hPos
    · exact (hNode.holds hZero).1.ascending
    · exact (hNode.routes hPos).1.ascending_keys
  · intro p hp i hi
    have hNode := h.nodes p (hLt hp)
    rw [hNode.highKey]
    rcases Nat.eq_zero_or_pos (a.nodes p).level with hZero | hPos
    · exact (hValid.record_some p (hLt hp) _ _ ((hNode.holds hZero).1.get hi)).2
    · obtain ⟨q, _, hq, _, hLow, hChild⟩ :=
        h.separator_spec hValid (hLt hp) hPos (i := i + 1) (by omega)
      have hRange := (hValid.child_some p (hLt hp) _ q hChild).2.2.2.2
      rw [hLow] at hRange
      simpa using hRange
  · intro p hp hInner i hi
    have hNode := h.nodes p (hLt hp)
    obtain ⟨q, hSep, hq, hLevel, hLow, _⟩ :=
      h.separator_spec hValid (hLt hp) (hNode.isInner_iff.mp hInner) hi
    refine ⟨q, hSep, by rw [h.count]; exact hq, hLevel, hLow, ?_, ?_⟩
    · intro hBranch
      rw [hNode.isBranch_iff] at hBranch
      rw [(h.nodes q hq).isLeaf_iff]
      omega
    · intro hBranch
      rw [Bool.eq_false_iff, Ne, hNode.isBranch_iff] at hBranch
      rw [(h.nodes q hq).isInner_iff]
      omega

/-- The separators in memory are the posted nodes. -/
theorem Rep.isSeparator_iff (h : Rep L t a) (hValid : a.Valid) (q : Nat) :
    t.IsSeparator q ↔ a.Posted q := by
  constructor
  · rintro ⟨p, i, hp, hInner, hi, hSep⟩
    rw [h.count] at hp
    obtain ⟨q', hSep', _, _, _, hChild⟩ :=
      h.separator_spec hValid hp ((h.nodes p hp).isInner_iff.mp hInner) hi
    obtain rfl : q = q' := by simpa [hSep] using hSep'
    exact ⟨p, hp, _, hChild⟩
  · rintro ⟨p, hp, b, hChild⟩
    have hLevel := (hValid.child_some p hp b q hChild).2.1
    have hPos : 0 < (a.nodes p).level := by omega
    obtain ⟨hRoutes, _⟩ := (h.nodes p hp).routes hPos
    obtain ⟨i, hi, _, hSep⟩ := (hRoutes.maps b (some q)).mp
      ((separatorsOf_eq_some _ _ _).mpr hChild)
    exact ⟨p, i, by rw [h.count]; exact hp, (h.nodes p hp).isInner_iff.mpr hPos, by omega, hSep⟩

end Reading

/-! ## Structure in every state -/

section Runs

variable [Nontrivial K] [Zero V] (L : Layout K V) (memory : Nat → Node K V)
  (log : List (Event K V)) (s : State K V)

/-- In every state of every run the tree is structured, and the nodes besides the
root that are no separator of an inner node are the separators the tasks in flight carry, each
carried by one task. -/
theorem structure_of_run
    (hRun : Verified.Run (BoundedStep L) (State.initial memory) log s) :
    (∃ top level low, Structured L s.tree top level low) ∧
    (∀ task ∈ s.tasks, ∀ key separator, task.body = .insertSeparator key separator →
      ∃ q, separator = some q) ∧
    ∀ q, (q < s.tree.count ∧ s.tree.root ≠ some q ∧ ¬ s.tree.IsSeparator q →
        (carriedSeparators s.tasks).count q = 1) ∧
      (¬ (q < s.tree.count ∧ s.tree.root ≠ some q ∧ ¬ s.tree.IsSeparator q) →
        (carriedSeparators s.tasks).count q = 0) := by
  obtain ⟨a, hInv, _⟩ := Inv.run hRun
  have hRep := hInv.rep
  refine ⟨⟨_, _, _, hRep.structured hInv.valid⟩, ?_, fun q => ?_⟩
  · intro task hMem key separator hBody
    obtain ⟨_, q, _, hSep, _⟩ := (hInv.tasks task hMem).separator key separator hBody
    exact ⟨q, hSep⟩
  · have hUnposted : (q < s.tree.count ∧ s.tree.root ≠ some q ∧ ¬ s.tree.IsSeparator q) ↔
        a.Unposted q := by
      rw [hRep.isSeparator_iff hInv.valid, hRep.count, hRep.root]
      simp [Unposted, eq_comm]
    rw [hUnposted, ← hInv.carried q]
    exact ⟨Multiset.count_eq_one_of_mem hInv.nodup, Multiset.count_eq_zero.mpr⟩

/-- The separator in flight is the one node that no inner node has. -/
theorem structure_of_run_carrying :
    ∃ log s, Verified.Run (BoundedStep Layout.smallest) (State.initial zeroMemory) log s ∧
      s.tree.count = 4 ∧ (carriedSeparators s.tasks).count 3 = 1 ∧ ¬ s.tree.IsSeparator 3 ∧
      ∃ top level low, Structured Layout.smallest s.tree top level low := by
  obtain ⟨hStructured, -, hCarried⟩ := structure_of_run _ _ _ _ run_carrying
  have hOne : (carriedSeparators carrying.state.tasks).count 3 = 1 := by decide
  refine ⟨_, _, run_carrying, by decide, hOne, fun hSep => ?_, hStructured⟩
  have hZero := (hCarried 3).2 fun hNot => hNot.2.2 hSep
  omega

omit [Nontrivial K] in
/-- Later states of a run extend the abstract tree of earlier ones. -/
theorem Inv.run_from {L : Layout K V} {log : List (Event K V)} {s s' : State K V}
    {a : AbstractTree K V} (h : Inv L s a) (hRun : Verified.Run (BoundedStep L) s log s') :
    ∃ a', Inv L s' a' ∧ a.Extends a' := by
  refine hRun.invariant (P := fun s' => ∃ a', Inv L s' a' ∧ a.Extends a') ?_ ?_
  · exact ⟨a, h, Extends.refl a⟩
  · rintro e mid fin ⟨b, hInv, hExt⟩ hStep
    obtain ⟨c, hInv', hExt', _⟩ := hInv.step hStep
    exact ⟨c, hInv', hExt.trans hExt'⟩

/-- In every state of every run: the root is the one node without a parent; every other
parent link names a node one level up that does not start right of the node; a separator task
is on the level above its separator and not right of its key, so where it inserts is the
one node of that level whose range contains the key; a root created later is on a higher
level than every earlier root; and the height is the number of levels. -/
theorem parents_of_run
    (hRun : Verified.Run (BoundedStep L) (State.initial memory) log s) :
    ∃ top level low, Structured L s.tree top level low ∧
      (∃ root, s.tree.root = some root ∧ root < s.tree.count ∧ level root = top ∧
        ∀ p, p < s.tree.count → ((s.tree.nodes p).parent = none ↔ p = root)) ∧
      (∀ p, p < s.tree.count → ∀ q, (s.tree.nodes p).parent = some q →
        q < s.tree.count ∧ level q = level p + 1 ∧ low q ≤ low p) ∧
      (∀ task ∈ s.tasks, ∀ key separator, task.body = .insertSeparator key separator →
        ∃ p q, task.annotatedResource = some p ∧ p < s.tree.count ∧ separator = some q ∧
          q < s.tree.count ∧ level p = level q + 1 ∧ low q = key ∧ low p ≤ key ∧
          (¬ (s.tree.nodes p).highKey ≤ key → (s.tree.nodes p).isInner = true ∧
            ∀ r, (r < s.tree.count ∧ level r = level q + 1 ∧ low r ≤ key ∧
              key < (s.tree.nodes r).highKey) ↔ r = p)) ∧
      (∀ log₁ s₁ log₂, Verified.Run (BoundedStep L) (State.initial memory) log₁ s₁ →
        Verified.Run (BoundedStep L) s₁ log₂ s → ∀ root₁ root, s₁.tree.root = some root₁ →
          s.tree.root = some root → root₁ ≠ root → level root₁ < level root) ∧
      (top + 1 < 256 → s.tree.height.toNat = top + 1) := by
  obtain ⟨a, hInv, _⟩ := Inv.run hRun
  have hRep := hInv.rep
  have hValid := hInv.valid
  have hCount := hRep.count
  refine ⟨_, _, _, hRep.structured hValid, ⟨a.root, hRep.root, ?_, rfl, ?_⟩, ?_, ?_, ?_, ?_⟩
  · rw [hCount]; exact hValid.root_lt
  · intro p hp
    rw [hCount] at hp
    rw [(hRep.nodes p hp).parent]
    exact hInv.rootOnly p hp
  · intro p hp q hParent
    rw [hCount] at hp
    rw [(hRep.nodes p hp).parent] at hParent
    rw [hCount]
    exact hValid.parent_some p hp q hParent
  · intro task hMem key separator hBody
    have hTask := hInv.tasks task hMem
    obtain ⟨p, hAnn, hp, hLow⟩ := hTask.annotated
    obtain ⟨p', q, hAnn', rfl, hq, hLevel, hqLow⟩ := hTask.separator key separator hBody
    obtain rfl : p = p' := by simpa [hAnn] using hAnn'
    rw [hBody] at hLow
    refine ⟨p, q, hAnn, by rw [hCount]; exact hp, rfl, by rw [hCount]; exact hq, hLevel.symm,
      hqLow, hLow, fun hle => ?_⟩
    have hFits := hTask.fits hRep hBody hAnn hle
    refine ⟨(hRep.nodes p hp).isInner_iff.mpr (by omega), fun r => ?_⟩
    rw [hCount]
    constructor
    · rintro ⟨hr, hrLevel, hrLow, hrHigh⟩
      rw [(hRep.nodes r hr).highKey] at hrHigh
      exact hValid.owner_unique hr hp (by omega) ⟨hrLow, hrHigh⟩ ⟨hFits.low_le, hFits.lt_high⟩
    · rintro rfl
      rw [(hRep.nodes r hp).highKey]
      exact ⟨hp, hLevel.symm, hLow, hFits.lt_high⟩
  · intro log₁ s₁ log₂ hRun₁ hRun₂ root₁ root hRoot₁ hRoot hne
    obtain ⟨a₁, hInv₁, _⟩ := Inv.run hRun₁
    obtain ⟨a₂, hInv₂, hExt⟩ := hInv₁.run_from hRun₂
    obtain rfl : a₁.root = root₁ := by simpa [hInv₁.rep.root] using hRoot₁
    obtain rfl : a.root = root := by simpa [hRep.root] using hRoot
    have hOld : a₁.root < a.count := by
      rw [← hCount, hInv₂.rep.count]
      exact lt_of_lt_of_le hInv₁.valid.root_lt hExt.count_le
    refine lt_of_le_of_ne (hValid.level_le _ hOld) (fun hEq => hne ?_)
    exact hValid.eq_root_of_level hInv.rootOnly hOld hEq
  · intro hTop
    rw [hRep.height, Nat.mod_eq_of_lt hTop]

/-- The root is the one node without a parent, and the separator goes to the level above it. -/
theorem parents_of_run_carrying :
    ∃ log s, Verified.Run (BoundedStep Layout.smallest) (State.initial zeroMemory) log s ∧
      s.tree.count = 4 ∧ (∀ p < 4, (s.tree.nodes p).parent = none ↔ p = 2) ∧
      ∃ top level low, Structured Layout.smallest s.tree top level low ∧ level 2 = level 3 + 1 := by
  obtain ⟨top, level, low, hStructured, ⟨root, hRoot, _, _, hOnly⟩, _, hTasks, _⟩ :=
    parents_of_run _ _ _ _ run_carrying
  have hCount : carrying.state.tree.count = 4 := by decide
  have hTwo : carrying.state.tree.root = some 2 := by decide
  obtain rfl : 2 = root := Option.some.inj (hTwo.symm.trans hRoot)
  have hTask : carrying.tasks = [⟨.insertSeparator 3 (some 3), some 2, false⟩] := rfl
  obtain ⟨p, q, hAnn, _, hSep, _, hLevel, _⟩ := hTasks ⟨.insertSeparator 3 (some 3), some 2, false⟩
    (by rw [Stage.state, hTask]; exact Multiset.mem_singleton_self _) 3 (some 3) rfl
  obtain rfl := Option.some.inj hAnn
  obtain rfl := Option.some.inj hSep
  exact ⟨_, _, run_carrying, hCount, fun p hp => hOnly p (by rw [hCount]; exact hp), top, level,
    low, hStructured, hLevel⟩

end Runs

end MxTasking.BLinkTree
