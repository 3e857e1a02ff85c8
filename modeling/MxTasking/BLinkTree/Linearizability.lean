import MxTasking.BLinkTree.Execution
import MxTasking.BLinkTree.Schedule

/-!
# The tree is a linearizable map

Every request takes effect in one execution, its leaf step.  At every moment the
records in the leaves are the map one gets from the leaf steps so far, in the order in
which they were taken, and a request takes its leaf step on the one leaf whose
range contains its key, however many splits happened since it was spawned.

The low bound of a node is not stored.  It is what the left neighbour has as its high key
(`Tree.IsLowBound`), or the least key when there is none.

## Main results

* `Inv.isLowBound_iff` — low bounds in memory are those of the abstract tree.
* `linearizable`.
-/

namespace MxTasking.BLinkTree

open AbstractTree

variable {K V : Type*} [LinearOrder K] [BoundedOrder K]

namespace Tree

/-- Slot `i` of the leaf `p` holds a record. -/
structure LiveSlot (t : Tree K V) (p i : Nat) : Prop where
  lt : p < t.count
  leaf : (t.nodes p).isLeaf = true
  live : i < (t.nodes p).size

/-- `(k, v)` is a record of some leaf. -/
def Stores (t : Tree K V) (k : K) (v : V) : Prop :=
  ∃ p i, t.LiveSlot p i ∧ (t.nodes p).keys i = k ∧ (t.nodes p).values i = v

/-- `low` is the low bound of `p`: the high key of its left neighbour. -/
def IsLowBound (t : Tree K V) (p : Nat) (low : K) : Prop :=
  (∃ q, q < t.count ∧ (t.nodes q).rightSibling = some p ∧ (t.nodes q).highKey = low) ∨
    ((∀ q, q < t.count → (t.nodes q).rightSibling ≠ some p) ∧ low = ⊥)

/-- The range of the leaf `p` contains `k`. -/
def LeafOwns (t : Tree K V) (p : Nat) (k : K) : Prop :=
  p < t.count ∧ (t.nodes p).isLeaf = true ∧
    ∃ low, t.IsLowBound p low ∧ low ≤ k ∧ k < (t.nodes p).highKey

end Tree

section Reading

variable {L : Layout K V} {t : Tree K V} {a : AbstractTree K V}

/-- A node that does not start at the bottom has a left neighbour. -/
theorem AbstractTree.Valid.exists_left (h : a.Valid) {p : Nat} (hp : p < a.count)
    (hLow : (a.nodes p).low ≠ ⊥) : ∃ q, q < a.count ∧ (a.nodes q).right = some p := by
  obtain ⟨first, l, hFirst, hFollows, _, hMem⟩ := (h.tiles (h.level_le p hp)).chain
  rcases hFollows.exists_link ((hMem p).mpr (mem_levelSet.mpr ⟨hp, rfl⟩)) with rfl | ⟨q, hq, hLink⟩
  · exact absurd hFirst hLow
  · exact ⟨q, (mem_levelSet.mp ((hMem q).mp hq)).1, hLink⟩

/-- The low bound of a node in memory is the one of the abstract tree. -/
theorem Rep.isLowBound_iff (h : Rep L t a) (hValid : a.Valid) {p : Nat} (hp : p < a.count)
    (low : K) : t.IsLowBound p low ↔ low = (a.nodes p).low := by
  have hRight : ∀ q, q < t.count → (t.nodes q).rightSibling = some p →
      (t.nodes q).highKey = (a.nodes p).low := by
    intro q hq hLink
    rw [h.count] at hq
    rw [(h.nodes q hq).rightSibling] at hLink
    rw [(h.nodes q hq).highKey]
    exact (hValid.right_some q hq p hLink).2.2.symm
  constructor
  · rintro (⟨q, hq, hLink, rfl⟩ | ⟨hNone, rfl⟩)
    · exact hRight q hq hLink
    · by_contra hne
      obtain ⟨q, hq, hLink⟩ := hValid.exists_left hp (fun hEq => hne hEq.symm)
      refine hNone q (by rw [h.count]; exact hq) ?_
      rw [(h.nodes q hq).rightSibling]
      exact hLink
  · rintro rfl
    by_cases hLeft : ∃ q, q < t.count ∧ (t.nodes q).rightSibling = some p
    · obtain ⟨q, hq, hLink⟩ := hLeft
      exact Or.inl ⟨q, hq, hLink, hRight q hq hLink⟩
    · refine Or.inr ⟨fun q hq hLink => hLeft ⟨q, hq, hLink⟩, ?_⟩
      by_contra hne
      obtain ⟨q, hq, hLink⟩ := hValid.exists_left hp hne
      refine hLeft ⟨q, by rw [h.count]; exact hq, ?_⟩
      rw [(h.nodes q hq).rightSibling]
      exact hLink

/-- The live slots of the leaves are the records of the abstract tree. -/
theorem Rep.stores_iff (h : Rep L t a) (hValid : a.Valid) (k : K) (v : V) :
    t.Stores k v ↔ a.Stores k v := by
  constructor
  · rintro ⟨p, i, ⟨hp, hLeaf, hLive⟩, rfl, rfl⟩
    rw [h.count] at hp
    have hNode := h.nodes p hp
    exact ⟨p, hp, (hNode.holds (hNode.isLeaf_iff.mp hLeaf)).1.get hLive⟩
  · rintro ⟨p, hp, hRec⟩
    have hNode := h.nodes p hp
    have hLevel := (hValid.record_some p hp k v hRec).1
    obtain ⟨i, hi, hKey, hVal⟩ := ((hNode.holds hLevel).1.maps k v).mp hRec
    exact ⟨p, i, ⟨by rw [h.count]; exact hp, hNode.isLeaf_iff.mpr hLevel, hi⟩, hKey, hVal⟩

/-- No key is stored twice. -/
theorem Rep.liveSlot_unique (h : Rep L t a) (hValid : a.Valid) {p i q j : Nat}
    (hp : t.LiveSlot p i) (hq : t.LiveSlot q j)
    (hKey : (t.nodes p).keys i = (t.nodes q).keys j) : p = q ∧ i = j := by
  obtain ⟨hpLt, hpLeaf, hpLive⟩ := hp
  obtain ⟨hqLt, hqLeaf, hqLive⟩ := hq
  rw [h.count] at hpLt hqLt
  have hpLevel := (h.nodes p hpLt).isLeaf_iff.mp hpLeaf
  have hqLevel := (h.nodes q hqLt).isLeaf_iff.mp hqLeaf
  have hpHolds := ((h.nodes p hpLt).holds hpLevel).1
  have hqHolds := ((h.nodes q hqLt).holds hqLevel).1
  have hpRange := (hValid.record_some p hpLt _ _ (hpHolds.get hpLive)).2
  have hqRange := (hValid.record_some q hqLt _ _ (hqHolds.get hqLive)).2
  obtain rfl := hValid.owner_unique hpLt hqLt (hpLevel.trans hqLevel.symm) hpRange
    (hKey ▸ hqRange)
  exact ⟨rfl, hpHolds.ascending.inj hpLive hqLive hKey⟩

/-- A leaf owns a key when the range of the abstract node contains it. -/
theorem Rep.leafOwns_iff (h : Rep L t a) (hValid : a.Valid) (p : Nat) (k : K) :
    t.LeafOwns p k ↔
      p < a.count ∧ (a.nodes p).level = 0 ∧ (a.nodes p).low ≤ k ∧ k < (a.nodes p).high := by
  constructor
  · rintro ⟨hp, hLeaf, low, hLow, hle, hlt⟩
    rw [h.count] at hp
    rw [h.isLowBound_iff hValid hp] at hLow
    rw [(h.nodes p hp).highKey] at hlt
    exact ⟨hp, (h.nodes p hp).isLeaf_iff.mp hLeaf, hLow ▸ hle, hlt⟩
  · rintro ⟨hp, hLevel, hle, hlt⟩
    refine ⟨by rw [h.count]; exact hp, (h.nodes p hp).isLeaf_iff.mpr hLevel, _,
      (h.isLowBound_iff hValid hp _).mpr rfl, hle, ?_⟩
    rw [(h.nodes p hp).highKey]
    exact hlt

end Reading

/-! ## Leaf steps -/

section LeafStep

variable {L : Layout K V} {a : AbstractTree K V} {task : Task K V} {p : Nat}
  {key : K} {value : V} (coreId : Nat)

omit [BoundedOrder K] in
/-- What can be said about a task whose next execution is its leaf step. -/
theorem leafStep_inv {t : Tree K V} {op : MapOp K V} (h : task.leafStep t = some op) :
    ∃ p, task.annotatedResource = some p ∧ ¬ (t.nodes p).highKey ≤ task.body.key ∧
      ¬ (t.nodes p).isInner = true ∧ ¬ (task.body.writes = true ∧ task.isReadonly = true) ∧
      task.body.mapOp = some op := by
  unfold Task.leafStep at h
  split at h
  · exact absurd h (by simp)
  · rename_i p hAnn
    dsimp only at h
    split at h
    · exact absurd h (by simp)
    · rename_i hNot
      simp only [not_or] at hNot
      exact ⟨p, hAnn, hNot.1, hNot.2.1, hNot.2.2, h⟩

omit [BoundedOrder K] in
/-- The leaf step of a lookup reports the value the leaf holds for the key. -/
theorem lookupExecute_calls {t : Tree K V} {found : V}
    (hle : ¬ (t.nodes p).highKey ≤ key) (hInner : ¬ (t.nodes p).isInner = true)
    {f : K → Option V} (hHolds : (t.nodes p).Holds f) (hSize : (t.nodes p).size ≤ L.maxItems)
    (hSome : f key = some value) :
    (lookupExecute L coreId t task key found p).allCalls = [.found coreId key value] := by
  have hHit : f key ≠ none := by rw [hSome]; simp
  obtain ⟨hlt, hSlot⟩ := (hHolds.index_hit key).mpr hHit
  have hValue := hHolds.value_of_hit hHit
  rw [← Node.leafKey_of_lt (L := L) (by omega)] at hSlot
  rw [hSome, Option.some.injEq] at hValue
  unfold lookupExecute
  simp only [if_neg hle, if_neg hInner, if_pos hSlot, ← hValue]
  rfl

omit [BoundedOrder K] in
/-- The leaf step of an update of a key that is there reports it. -/
theorem updateExecute_calls {t : Tree K V} (hle : ¬ (t.nodes p).highKey ≤ key)
    (hInner : ¬ (t.nodes p).isInner = true) (hReads : ¬ task.isReadonly = true)
    (hBody : task.body = .update key value)
    {f : K → Option V} (hHolds : (t.nodes p).Holds f) (hSize : (t.nodes p).size ≤ L.maxItems)
    (hHit : f key ≠ none) :
    (updateExecute L coreId t task key value p).allCalls = [.updated coreId key value] := by
  obtain ⟨hlt, hSlot⟩ := (hHolds.index_hit key).mpr hHit
  rw [← Node.leafKey_of_lt (L := L) (by omega)] at hSlot
  unfold updateExecute
  rw [if_neg hle, if_neg hInner, if_neg (by simpa using fun _ => hReads)]
  simp only [if_pos hSlot]
  simp [Execution.allCalls, TaskResult.makeRemove, hBody, TaskBody.destructor, hSlot]

/-- On its leaf step a task is on the one leaf that owns its key and finds there what the
map has. -/
theorem TaskOK.leafStep_owner {t : Tree K V} {f : K → Option V} {op : MapOp K V}
    (hTask : TaskOK a task) (hRep : Rep L t a) (hValid : a.Valid) (hContains : a.Contains f)
    (hAnn : task.annotatedResource = some p) (hOp : task.leafStep t = some op) :
    (∀ q, t.LeafOwns q task.body.key ↔ q = p) ∧
      (∀ v, (∃ i, t.LiveSlot p i ∧ (t.nodes p).keys i = task.body.key ∧
        (t.nodes p).values i = v) ↔ f task.body.key = some v) ∧
      ∃ g, (t.nodes p).Holds g ∧ (t.nodes p).size ≤ L.maxItems ∧
        g task.body.key = f task.body.key := by
  obtain ⟨p', hAnn', hle, hInner, _, _⟩ := leafStep_inv hOp
  obtain rfl : p = p' := by simpa [hAnn] using hAnn'
  obtain ⟨hp, hLevel, hRange⟩ := hTask.owner hRep hAnn hle hInner
  have hNode := hRep.nodes p hp
  obtain ⟨hHolds, hSize⟩ := hNode.holds hLevel
  have hRecord := hContains.record_eq hValid hp hLevel hRange
  refine ⟨fun q => ?_, fun v => ?_, _, hHolds, hSize, hRecord⟩
  · rw [hRep.leafOwns_iff hValid]
    constructor
    · rintro ⟨hq, hqLevel, hqRange⟩
      exact hValid.owner_unique hq hp (hqLevel.trans hLevel.symm) hqRange hRange
    · rintro rfl
      exact ⟨hp, hLevel, hRange⟩
  · rw [← hRecord, hHolds.maps]
    constructor
    · rintro ⟨i, ⟨_, _, hi⟩, hKey, hVal⟩
      exact ⟨i, hi, hKey, hVal⟩
    · rintro ⟨i, hi, hKey, hVal⟩
      exact ⟨i, ⟨by rw [hRep.count]; exact hp, hNode.isLeaf_iff.mpr hLevel, hi⟩, hKey, hVal⟩

end LeafStep

/-- The B-link tree is a linearizable map.  After every run the live records are the map
the leaf steps of the log make, each key in one slot of one leaf; every task in flight can
execute; and one that takes its leaf step does so on the one leaf whose range contains its
key, where it finds what the map has. -/
theorem linearizable [Nontrivial K] [Zero V] (L : Layout K V) (memory : Nat → Node K V)
    (log : List (Event K V)) (s : State K V)
    (hRun : Verified.Run (BoundedStep L) (State.initial memory) log s) :
    (∀ k v, s.tree.Stores k v ↔ mapAfter log k = some v) ∧
    (∀ p i q j, s.tree.LiveSlot p i → s.tree.LiveSlot q j →
      (s.tree.nodes p).keys i = (s.tree.nodes q).keys j → p = q ∧ i = j) ∧
    ∀ task ∈ s.tasks, ∀ coreId, ∃ ex, task.execute L coreId s.tree = some ex ∧
      ∀ op, task.leafStep s.tree = some op →
        ∃ p, task.annotatedResource = some p ∧
          (∀ q, s.tree.LeafOwns q task.body.key ↔ q = p) ∧
          (∀ v, (∃ i, s.tree.LiveSlot p i ∧ (s.tree.nodes p).keys i = task.body.key ∧
            (s.tree.nodes p).values i = v) ↔ mapAfter log task.body.key = some v) ∧
          (∀ key found core v, task.body = .lookup key found core →
            mapAfter log key = some v → ex.allCalls = [.found coreId key v]) ∧
          (∀ key value, task.body = .update key value → mapAfter log key ≠ none →
            ex.allCalls = [.updated coreId key value]) := by
  obtain ⟨a, hInv, hContains⟩ := Inv.run hRun
  have hRep := hInv.rep
  have hValid := hInv.valid
  refine ⟨fun k v => ?_, fun p i q j hp hq hKey => hRep.liveSlot_unique hValid hp hq hKey,
    fun task hMem coreId => ?_⟩
  · rw [hRep.stores_iff hValid, hContains k v]
  have hTask := hInv.tasks task hMem
  obtain ⟨p, hAnn, _⟩ := hTask.annotated
  unfold Task.execute
  rw [hAnn]
  refine ⟨_, rfl, fun op hOp => ?_⟩
  obtain ⟨hOwns, hFinds, f, hHolds, hSize, hf⟩ :=
    hTask.leafStep_owner hRep hValid hContains hAnn hOp
  obtain ⟨p', hAnn', hle, hInner, hMode, _⟩ := leafStep_inv hOp
  obtain rfl : p = p' := by simpa [hAnn] using hAnn'
  refine ⟨p, rfl, hOwns, hFinds, ?_, ?_⟩
  · intro key found core v hBody hSome
    rw [hBody] at hle hf ⊢
    exact lookupExecute_calls coreId hle hInner hHolds hSize (hf.trans hSome)
  · intro key value hBody hSome
    rw [hBody] at hle hf hMode ⊢
    exact updateExecute_calls coreId hle hInner (fun hReads => hMode ⟨rfl, hReads⟩) hBody hHolds
      hSize (by rw [show f key = mapAfter log key from hf]; exact hSome)

/-- The fourth insert has split a leaf: its record is in the tree while the separator is in
flight. -/
theorem linearizable_carrying :
    ∃ log s, Verified.Run (BoundedStep Layout.smallest) (State.initial zeroMemory) log s ∧
      s.tasks.card = 1 ∧ s.tree.count = 4 ∧ s.tree.Stores 4 40 :=
  ⟨_, _, run_carrying, by decide, by decide,
    ((linearizable _ _ _ _ run_carrying).1 4 40).mpr (by decide)⟩

end MxTasking.BLinkTree
