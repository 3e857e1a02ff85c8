import MxTasking.BLinkTree.Tree

/-!
# What the node operations compute

The array code of a node in terms of the finite map its live slots hold:
`Holds` for the records of a leaf, `Routes` for the separators of an inner node.  An inner
node with `size` keys has `size + 1` separators; with the low bound of the node
put in front of its keys the two arrays have the same length, and the searches, shifts and
cuts of an inner node become those of a leaf.

The splits are looked at in two steps.  What is in the arrays of the two halves are the slots of
the full node with the new one inserted, cut in the middle (`LeafCut`, `CutAt`); the inner split
has three branches, by where the new key falls relative to the two middle keys, and each of them
moves other ranges to get there.  For the maps this is an insertion and a cut at a key.

## Main results

* `Holds.insertValue`, `Routes.insertSeparator` — insertion is a point update.
* `Routes.child_spec` — `child` finds a separator whose low bound is not above the key.
* `leafCut_distributeLeaf`, `cutAt_distributeInner` — the two splits, slot by slot.
* `Holds.distributeLeaf`, `Routes.distributeInner` — and as maps.
-/

namespace MxTasking.BLinkTree.Node

open MxTasking.Verified.Slots

/-! ## Slots -/

section Slots

variable {K V : Type*} {L : Layout K V} {n new : Node K V} {key : K} {value : V} {separator : Ptr}

theorem leafKey_of_lt {index : Nat} (h : index < L.maxItems) :
    n.leafKey L index = n.keys index := by
  simp [leafKey, h]

theorem insertValue_keys {i j : Nat} (hi : i ≤ n.size) (hj : j ≤ n.size) :
    (n.insertValue i value key).keys j = insertSlot n.keys i key j :=
  shift_eq_insertSlot n.keys key hi hj

theorem insertValue_values {i j : Nat} (hi : i ≤ n.size) (hj : j ≤ n.size) :
    (n.insertValue i value key).values j = insertSlot n.values i value j :=
  shift_eq_insertSlot n.values value hi hj

theorem insertSeparator_keys {i j : Nat} (hi : i ≤ n.size) (hj : j ≤ n.size) :
    (n.insertSeparator i separator key).keys j = insertSlot n.keys i key j :=
  shift_eq_insertSlot n.keys key hi hj

theorem insertSeparator_separators {i j : Nat} (hi : i ≤ n.size) (hj : j ≤ n.size + 1) :
    (n.insertSeparator i separator key).separators j =
      insertSlot n.separators (i + 1) separator j := by
  have hShift := shift_eq_insertSlot n.separators separator (Nat.succ_le_succ hi) hj
  rw [show n.size + 1 - (i + 1) = n.size - i from by omega] at hShift
  simp only [Nat.succ_eq_add_one, Nat.add_lt_add_iff_right] at hShift
  exact hShift

@[simp] theorem insertValue_size (n : Node K V) (i : Nat) (v : V) (k : K) :
    (n.insertValue i v k).size = n.size + 1 := rfl

@[simp] theorem insertSeparator_size (n : Node K V) (i : Nat) (s : Ptr) (k : K) :
    (n.insertSeparator i s k).size = n.size + 1 := rfl

theorem move_leaf (hLeaf : n.isLeaf = true) (i count : Nat) :
    n.move new i count =
      { new with
        keys := memcpy new.keys n.keys 0 i count
        values := memcpy new.values n.values 0 i count } := by
  simp [move, hLeaf]

theorem move_inner (hInner : n.isLeaf = false) (i count : Nat) :
    n.move new i count =
      { new with
        keys := memcpy new.keys n.keys 0 i count
        separators := memcpy new.separators n.separators 1 (i + 1) count } := by
  simp [move, hInner]

/-- The keys that are moved to the right half. -/
theorem move_keys (hInner : n.isLeaf = false) (new : Node K V) (s : Ptr) {i count j : Nat}
    (hj : j < count) : ((n.move new i count).setSeparator 0 s).keys j = n.keys (i + j) := by
  rw [move_inner hInner]
  exact memcpy_of_mem _ _ (Nat.zero_le j) (by omega)

/-- The separators that are moved to the right half, behind the first one. -/
theorem move_separators (hInner : n.isLeaf = false) (new : Node K V) (s : Ptr) {i count j : Nat}
    (hj : j < count) :
    ((n.move new i count).setSeparator 0 s).separators (j + 1) = n.separators (i + 1 + j) := by
  rw [move_inner hInner]
  simp only [setSeparator]
  rw [Function.update_of_ne (Nat.succ_ne_zero j), memcpy_of_mem _ _ (by omega) (by omega)]
  rfl

end Slots

variable {K V : Type*} [LinearOrder K]
variable {L : Layout K V} {n new : Node K V} {f : K → Option V} {g : K → Option Ptr}
  {key low : K} {value : V} {separator : Ptr}

/-- The live records of the leaf `n` are the map `f`. -/
def Holds (n : Node K V) (f : K → Option V) : Prop :=
  Represents n.keys n.values n.size f

/-- The separators of the inner node `n` with low bound `low` are the map `g`. -/
def Routes (low : K) (n : Node K V) (g : K → Option Ptr) : Prop :=
  Represents (insertSlot n.keys 0 low) n.separators (n.size + 1) g

/-- The fields the array operations leave alone. -/
structure SameHeader (n n' : Node K V) : Prop where
  nodeType : n'.nodeType = n.nodeType
  highKey : n'.highKey = n.highKey
  rightSibling : n'.rightSibling = n.rightSibling
  parent : n'.parent = n.parent

/-! ## Searching -/

theorem index_isLowerBound (hAsc : Ascending n.keys n.size) (key : K) :
    IsLowerBound n.keys n.size key (n.index key) :=
  lowerBound_isLowerBound hAsc key

theorem Holds.index_isLowerBound (h : n.Holds f) (key : K) :
    IsLowerBound n.keys n.size key (n.index key) :=
  lowerBound_isLowerBound h.ascending key

/-- The search hits a live slot with the key exactly for the keys that are there. -/
theorem Holds.index_hit (h : n.Holds f) (key : K) :
    (n.index key < n.size ∧ n.keys (n.index key) = key) ↔ f key ≠ none := by
  constructor
  · rintro ⟨hlt, hKey⟩
    have hGet := h.get hlt
    rw [hKey] at hGet
    rw [hGet]
    simp
  · intro hSome
    obtain ⟨v, hv⟩ := Option.ne_none_iff_exists'.mp hSome
    obtain ⟨i, hi, hKey, _⟩ := (h.maps key v).mp hv
    have hBound := h.index_isLowerBound key
    have hEq : n.index key = i := by
      rcases Nat.lt_trichotomy (n.index key) i with hlt | hEq | hgt
      · have hle := hBound.above _ (le_refl _) (by omega)
        have hslot := h.ascending _ i hlt hi
        rw [hKey] at hslot
        exact absurd hslot (not_lt.mpr hle)
      · exact hEq
      · exact absurd hKey (ne_of_lt (hBound.below i hgt))
    rw [hEq]
    exact ⟨hi, hKey⟩

/-- The value in the slot a hit names is the one of the map. -/
theorem Holds.value_of_hit (h : n.Holds f) (hHit : f key ≠ none) :
    f key = some (n.values (n.index key)) := by
  obtain ⟨hlt, hKey⟩ := (h.index_hit key).mpr hHit
  have hGet := h.get hlt
  rwa [hKey] at hGet

/-- The keys of an inner node are ascending. -/
theorem Routes.ascending_keys (h : n.Routes low g) : Ascending n.keys n.size := by
  intro i j hij hj
  have hExt := h.ascending (i + 1) (j + 1) (by omega) (by omega)
  simpa using hExt

/-- Separator `i + 1` belongs to key `i`. -/
theorem Routes.get_succ (h : n.Routes low g) {i : Nat} (hi : i < n.size) :
    g (n.keys i) = some (n.separators (i + 1)) := by
  have hGet := h.get (i := i + 1) (by omega)
  simpa using hGet

/-- The loop invariant of `child`: keys left of the window are not above `key`,
keys right of it are. -/
theorem childLoop_spec (key : K) (hAsc : Ascending n.keys n.size) :
    ∀ (fuel : Nat) (lo hi : Int), hi - lo < fuel → 0 ≤ lo → -1 ≤ hi → hi < n.size →
      lo ≤ hi + 1 → (∀ j : Nat, (j : Int) < lo → n.keys j ≤ key) →
      (∀ j : Nat, hi < j → j < n.size → key < n.keys j) →
      -1 ≤ n.childLoop key fuel lo hi ∧ n.childLoop key fuel lo hi < n.size ∧
        (∀ j : Nat, (j : Int) ≤ n.childLoop key fuel lo hi → n.keys j ≤ key) ∧
        (∀ j : Nat, n.childLoop key fuel lo hi < j → j < n.size → key < n.keys j) := by
  intro fuel
  induction fuel with
  | zero =>
      intro lo hi hFuel hLo hHi hSize hWin hBelow hAbove
      exact ⟨hHi, hSize, fun j hj => hBelow j (by simp only [childLoop] at hj; omega), hAbove⟩
  | succ fuel ih =>
      intro lo hi hFuel hLo hHi hSize hWin hBelow hAbove
      simp only [childLoop]
      by_cases hle : lo ≤ hi
      · rw [if_pos hle]
        have hMidLo : lo ≤ (lo + hi) / 2 := by omega
        have hMidHi : (lo + hi) / 2 ≤ hi := by omega
        obtain ⟨mid, hMid⟩ : ∃ mid : Nat, (lo + hi) / 2 = mid :=
          ⟨((lo + hi) / 2).toNat, by omega⟩
        rw [hMid] at hMidLo hMidHi ⊢
        by_cases hKey : n.innerKey (mid : Int).toNat ≤ key
        · rw [if_pos hKey]
          rw [Int.toNat_natCast] at hKey
          refine ih _ _ (by omega) (by omega) hHi hSize (by omega) ?_ hAbove
          intro j hj
          exact le_trans (hAsc.le (by omega) (by omega)) hKey
        · rw [if_neg hKey]
          rw [Int.toNat_natCast] at hKey
          refine ih _ _ (by omega) hLo (by omega) (by omega) (by omega) hBelow ?_
          intro j hj hjn
          exact lt_of_lt_of_le (not_le.mp hKey) (hAsc.le (by omega) hjn)
      · rw [if_neg hle]
        exact ⟨hHi, hSize, fun j hj => hBelow j (by omega), hAbove⟩

/-- `child(key)` is the separator behind the keys that are not above the key. -/
theorem child_spec (hAsc : Ascending n.keys n.size) (key : K) :
    ∃ i ≤ n.size, n.child key = n.separators i ∧ (∀ j < i, n.keys j ≤ key) ∧
      ∀ j, i ≤ j → j < n.size → key < n.keys j := by
  obtain ⟨hLo, hHi, hBelow, hAbove⟩ := childLoop_spec key hAsc n.size 0 (n.size - 1) (by omega)
    (le_refl _) (by omega) (by omega) (by omega) (fun j hj => absurd hj (by omega))
    (fun j hj hjn => absurd hjn (by omega))
  obtain ⟨i, hi⟩ : ∃ i : Nat, n.childLoop key n.size 0 (n.size - 1) + 1 = i :=
    ⟨(n.childLoop key n.size 0 (n.size - 1) + 1).toNat, by omega⟩
  refine ⟨i, by omega, ?_, fun j hj => hBelow j (by omega), fun j hij hj => ?_⟩
  · rw [child, hi, Int.toNat_natCast]
  · exact hAbove j (by omega) hj

/-- `child(key)` is the separator with the largest low bound not above the key. -/
theorem Routes.child_spec (h : n.Routes low g) (hLow : low ≤ key) :
    ∃ b, b ≤ key ∧ g b = some (n.child key) ∧ ∀ b', b' ≤ key → g b' ≠ none → b' ≤ b := by
  obtain ⟨i, hi, hChild, hBelow, hAbove⟩ := Node.child_spec h.ascending_keys key
  refine ⟨insertSlot n.keys 0 low i, ?_, ?_, ?_⟩
  · cases i with
    | zero => simpa using hLow
    | succ i => simpa using hBelow i (by omega)
  · rw [hChild]; exact h.get (by omega)
  · intro b' hb' hSome
    obtain ⟨s, hs⟩ := Option.ne_none_iff_exists'.mp hSome
    obtain ⟨j, hj, rfl, _⟩ := (h.maps b' s).mp hs
    refine h.ascending.le ?_ (by omega)
    by_contra hij
    obtain ⟨j, rfl⟩ : ∃ j', j = j' + 1 := ⟨j - 1, by omega⟩
    rw [insertSlot_zero_succ] at hb'
    exact absurd hb' (not_le.mpr (hAbove j (by omega) (by omega)))

/-! ## Inserting -/

theorem Holds.insertValue (h : n.Holds f) (hNew : f key = none) (value : V) :
    (n.insertValue (n.index key) value key).Holds (Function.update f key (some value)) := by
  have hBound := h.index_isLowerBound key
  refine (Represents.insert (v := value) h hBound hNew).congr ?_ ?_
  · intro j hj
    exact insertValue_keys hBound.le (Nat.le_of_lt_succ hj)
  · intro j hj
    exact insertValue_values hBound.le (Nat.le_of_lt_succ hj)

theorem Holds.setValue (h : n.Holds f) (hHit : f key ≠ none) (value : V) :
    (n.setValue (n.index key) value).Holds (Function.update f key (some value)) := by
  obtain ⟨hlt, hKey⟩ := (h.index_hit key).mpr hHit
  have hOver := h.overwrite hlt value
  rw [hKey] at hOver
  exact hOver

/-- With the low bound in front, the lower bound of a key moves up by one. -/
theorem Routes.index_isLowerBound (h : n.Routes low g) (hLow : low < key) :
    IsLowerBound (insertSlot n.keys 0 low) (n.size + 1) key (n.index key + 1) := by
  have hBound : IsLowerBound n.keys n.size key (n.index key) :=
    lowerBound_isLowerBound h.ascending_keys key
  refine ⟨Nat.succ_le_succ hBound.le, ?_, ?_⟩
  · intro j hj
    cases j with
    | zero => simpa using hLow
    | succ j => simpa using hBound.below j (by omega)
  · intro j hij hj
    obtain ⟨j, rfl⟩ : ∃ j', j = j' + 1 := ⟨j - 1, by omega⟩
    simpa using hBound.above j (by omega) (by omega)

theorem Routes.insertSeparator (h : n.Routes low g) (hLow : low < key)
    (hNew : g key = none) (separator : Ptr) :
    (n.insertSeparator (n.index key) separator key).Routes low
      (Function.update g key (some separator)) := by
  have hBound := h.index_isLowerBound hLow
  have hle : n.index key ≤ n.size := Nat.le_of_succ_le_succ hBound.le
  refine (Represents.insert (v := separator) h hBound hNew).congr ?_ ?_
  · intro j hj
    rw [← insertSlot_zero_insertSlot]
    cases j with
    | zero => simp
    | succ j =>
        rw [insertSlot_zero_succ, insertSlot_zero_succ]
        exact insertSeparator_keys hle (Nat.le_of_lt_succ (Nat.lt_of_succ_lt_succ hj))
  · intro j hj
    exact insertSeparator_separators hle (Nat.le_of_lt_succ hj)

/-! ## Splitting a leaf -/

/-- The arrays `keys` and `values` are cut somewhere in the middle. -/
structure LeafCut (left right : Node K V) (keys : Nat → K) (values : Nat → V) (size : Nat) :
    Prop where
  size : left.size + right.size = size
  left_pos : 1 ≤ left.size
  right_pos : 1 ≤ right.size
  left_keys : ∀ j < left.size, left.keys j = keys j
  left_values : ∀ j < left.size, left.values j = values j
  right_keys : ∀ j < right.size, right.keys j = keys (left.size + j)
  right_values : ∀ j < right.size, right.values j = values (left.size + j)

section Leaf

variable (hLeaf : n.isLeaf = true) (hFull : n.size = L.maxItems) (hAsc : Ascending n.keys n.size)
  (hNew : ∀ i < n.size, n.keys i ≠ key)
include hLeaf hFull hAsc hNew

/-- The right half before the new record goes in. -/
def rightHalf (L : Layout K V) (n new : Node K V) : Node K V :=
  { n.move new (L.maxItems / 2) (L.maxItems - L.maxItems / 2) with
    size := L.maxItems - L.maxItems / 2 }

omit [LinearOrder K] hNew hAsc hFull in
theorem rightHalf_slots (new : Node K V) {j : Nat} (hj : j < L.maxItems - L.maxItems / 2) :
    (rightHalf L n new).keys j = n.keys (L.maxItems / 2 + j) ∧
      (rightHalf L n new).values j = n.values (L.maxItems / 2 + j) := by
  rw [rightHalf, move_leaf hLeaf]
  exact ⟨memcpy_of_mem _ _ (Nat.zero_le j) (by omega),
    memcpy_of_mem _ _ (Nat.zero_le j) (by omega)⟩

omit hNew hAsc hFull in
theorem distributeLeaf_eq (value : V) (new : Node K V) :
    n.distributeLeaf L new key value =
      if key < n.keys (L.maxItems / 2) then
        (({ n with size := L.maxItems / 2 } : Node K V).insertValue
          (({ n with size := L.maxItems / 2 } : Node K V).index key) value key, rightHalf L n new)
      else
        ({ n with size := L.maxItems / 2 }, (rightHalf L n new).insertValue
          ((rightHalf L n new).index key) value key) := by
  have hTwo := L.two_le_maxItems
  have hFirst : (rightHalf L n new).leafKey L 0 = n.keys (L.maxItems / 2) := by
    rw [leafKey_of_lt (by omega), (rightHalf_slots hLeaf new (by omega)).1, Nat.add_zero]
  rw [← hFirst]
  rfl

/-- The records with the new one, cut in the middle. -/
theorem leafCut_distributeLeaf (value : V) (new : Node K V) :
    let d := n.distributeLeaf L new key value
    LeafCut d.1 d.2 (insertSlot n.keys (n.index key) key)
      (insertSlot n.values (n.index key) value) (L.maxItems + 1) := by
  have hTwo := L.two_le_maxItems
  have hBound := index_isLowerBound hAsc key
  have hLe := hBound.le
  have hSize : (rightHalf L n new).size = L.maxItems - L.maxItems / 2 := rfl
  rw [distributeLeaf_eq hLeaf]
  by_cases hKey : key < n.keys (L.maxItems / 2)
  · have hIndex : n.index key ≤ L.maxItems / 2 := hBound.le_of_lt hKey
    -- the search in the left half finds the same slot
    have hFound : ({ n with size := L.maxItems / 2 } : Node K V).index key = n.index key := by
      have hMono : Ascending n.keys (L.maxItems / 2) := hAsc.mono (by omega)
      refine lowerBound_eq hMono ⟨hIndex, hBound.below, fun j hij hj => ?_⟩
      have hj' : j < L.maxItems / 2 := hj
      exact hBound.above j hij (by omega)
    rw [if_pos hKey, hFound]
    refine
      { size := by simp only [insertValue_size, hSize]; omega
        left_pos := Nat.succ_pos _
        right_pos := by simp only [hSize]; omega
        left_keys := fun j hj => insertValue_keys hIndex (Nat.le_of_lt_succ hj)
        left_values := fun j hj => insertValue_values hIndex (Nat.le_of_lt_succ hj)
        right_keys := fun j hj => ?_
        right_values := fun j hj => ?_ }
    · show (rightHalf L n new).keys j = insertSlot n.keys (n.index key) key (L.maxItems / 2 + 1 + j)
      rw [(rightHalf_slots hLeaf new hj).1, insertSlot_of_gt _ _ (by omega)]
      congr 1
      omega
    · show (rightHalf L n new).values j =
        insertSlot n.values (n.index key) value (L.maxItems / 2 + 1 + j)
      rw [(rightHalf_slots hLeaf new hj).2, insertSlot_of_gt _ _ (by omega)]
      congr 1
      omega
  · have hIndex : L.maxItems / 2 + 1 ≤ n.index key :=
      hBound.lt_of_le (by omega) (not_lt.mp hKey) (hNew (L.maxItems / 2) (by omega))
    -- the search in the right half finds the slot that many places on
    have hFound : (rightHalf L n new).index key = n.index key - L.maxItems / 2 := by
      refine lowerBound_eq (fun i j hij hj => ?_) ⟨by omega, fun j hj => ?_, fun j hij hj => ?_⟩
      · rw [(rightHalf_slots hLeaf new (by omega)).1, (rightHalf_slots hLeaf new hj).1]
        exact hAsc _ _ (by omega) (by omega)
      · rw [(rightHalf_slots hLeaf new (by omega)).1]
        exact hBound.below _ (by omega)
      · rw [(rightHalf_slots hLeaf new (by omega)).1]
        exact hBound.above _ (by omega) (by omega)
    rw [if_neg hKey, hFound]
    refine
      { size := by simp only [insertValue_size, hSize]; omega
        left_pos := by simp only; omega
        right_pos := Nat.succ_pos _
        left_keys := fun j hj => (insertSlot_of_lt _ _ (by simp only at hj; omega)).symm
        left_values := fun j hj => (insertSlot_of_lt _ _ (by simp only at hj; omega)).symm
        right_keys := fun j hj => ?_
        right_values := fun j hj => ?_ }
    · rw [insertValue_size, hSize] at hj
      rw [insertValue_keys (by omega) (by omega)]
      exact insertSlot_shift key (by omega) (by omega)
        (fun j hj => (rightHalf_slots hLeaf new hj).1) (by omega)
    · rw [insertValue_size, hSize] at hj
      rw [insertValue_values (by omega) (by omega)]
      exact insertSlot_shift value (by omega) (by omega)
        (fun j hj => (rightHalf_slots hLeaf new hj).2) (by omega)

/-- The right half begins with the middle key of the leaf. -/
theorem distributeLeaf_middle (value : V) (new : Node K V) :
    insertSlot n.keys (n.index key) key (n.distributeLeaf L new key value).1.size =
      n.keys (L.maxItems / 2) := by
  have hTwo := L.two_le_maxItems
  have hBound := index_isLowerBound hAsc key
  rw [distributeLeaf_eq hLeaf]
  by_cases hKey : key < n.keys (L.maxItems / 2)
  · have hIndex : n.index key ≤ L.maxItems / 2 := hBound.le_of_lt hKey
    rw [if_pos hKey, insertValue_size, insertSlot_of_gt _ _ (Nat.lt_succ_of_le hIndex)]
    rfl
  · have hIndex : L.maxItems / 2 < n.index key :=
      hBound.lt_of_le (by omega) (not_lt.mp hKey) (hNew (L.maxItems / 2) (by omega))
    rw [if_neg hKey]
    exact insertSlot_of_lt _ _ hIndex

omit hNew hAsc hFull in
/-- The split leaves the headers alone. -/
theorem distributeLeaf_header (key : K) (value : V) (new : Node K V) :
    SameHeader n (n.distributeLeaf L new key value).1 ∧
      SameHeader new (n.distributeLeaf L new key value).2 := by
  rw [distributeLeaf_eq hLeaf, rightHalf, move_leaf hLeaf]
  split
  · exact ⟨⟨rfl, rfl, rfl, rfl⟩, ⟨rfl, rfl, rfl, rfl⟩⟩
  · exact ⟨⟨rfl, rfl, rfl, rfl⟩, ⟨rfl, rfl, rfl, rfl⟩⟩

end Leaf

/-- What a leaf split leaves in the two halves, with `m` the first key of the right
half. -/
structure LeafSplit (L : Layout K V) (n new : Node K V) (f : K → Option V) (m : K)
    (d : Node K V × Node K V) : Prop where
  left : d.1.Holds (below m f)
  right : d.2.Holds (fromOn m f)
  left_size : d.1.size ≤ L.maxItems
  right_size : d.2.size ≤ L.maxItems
  left_header : SameHeader n d.1
  right_header : SameHeader new d.2
  up_key : d.2.leafKey L 0 = m

/-- The records with the new one are cut at the middle key of the leaf. -/
theorem Holds.distributeLeaf (h : n.Holds f) (hLeaf : n.isLeaf = true)
    (hFull : n.size = L.maxItems) (hNew : f key = none) (value : V) (new : Node K V) :
    LeafSplit L n new (Function.update f key (some value)) (n.keys (L.maxItems / 2))
      (n.distributeLeaf L new key value) := by
  have hTwo := L.two_le_maxItems
  have hAbsent := (h.eq_none_iff key).mp hNew
  have hInsert := Represents.insert (v := value) h (h.index_isLowerBound key) hNew
  have hCut := leafCut_distributeLeaf hLeaf hFull h.ascending hAbsent value new
  have hHeader := distributeLeaf_header (L := L) hLeaf key value new
  have hMiddle := distributeLeaf_middle hLeaf hFull h.ascending hAbsent value new
  generalize n.distributeLeaf L new key value = d at hCut hHeader hMiddle ⊢
  have hTotal := hCut.size
  have hLeftPos := hCut.left_pos
  have hRightPos := hCut.right_pos
  have hLess : d.1.size < n.size + 1 := by omega
  rw [← hMiddle]
  refine
    { left := (hInsert.cutBelow hLess).congr hCut.left_keys hCut.left_values
      right := ?_
      left_size := by omega
      right_size := by omega
      left_header := hHeader.1
      right_header := hHeader.2
      up_key := ?_ }
  · have hRight := hInsert.cutFrom hLess
    rw [show n.size + 1 - d.1.size = d.2.size by omega] at hRight
    exact hRight.congr hCut.right_keys hCut.right_values
  · rw [leafKey_of_lt (by omega), hCut.right_keys 0 hRightPos, Nat.add_zero]

/-! ## Splitting an inner node -/

/-- The arrays `keys` and `separators` are cut at the key `up`. -/
structure CutAt (left right : Node K V) (up : K) (keys : Nat → K) (separators : Nat → Ptr)
    (size : Nat) : Prop where
  size : left.size + 1 + right.size = size
  left_pos : 1 ≤ left.size
  right_pos : 1 ≤ right.size
  up : up = keys left.size
  left_keys : ∀ j < left.size, left.keys j = keys j
  right_keys : ∀ j < right.size, right.keys j = keys (left.size + 1 + j)
  left_separators : ∀ j ≤ left.size, left.separators j = separators j
  right_separators : ∀ j ≤ right.size, right.separators j = separators (left.size + 1 + j)

section Inner

variable (hInner : n.isLeaf = false) (hFull : n.size = L.maxKeys) (hAsc : Ascending n.keys n.size)
  (hNew : ∀ i < n.size, n.keys i ≠ key)
include hInner hFull hAsc hNew

omit hNew in
/-- First branch: the new key is in front of both middle keys. -/
theorem cutAt_left (hKey : key < n.innerKey (L.maxKeys / 2 - 1)) (separator : Ptr)
    (new : Node K V) :
    let d := n.distributeInner L new key separator
    CutAt d.1 d.2.1 d.2.2 (insertSlot n.keys (n.index key) key)
      (insertSlot n.separators (n.index key + 1) separator) (L.maxKeys + 1) := by
  have hTwo := L.two_le_maxKeys
  have hBound := index_isLowerBound hAsc key
  have hIndex : n.index key ≤ L.maxKeys / 2 - 1 := hBound.le_of_lt hKey
  -- the search in the left half finds the same slot
  have hLeft : ({ n with size := L.maxKeys / 2 - 1 } : Node K V).index key = n.index key := by
    have hMono : Ascending n.keys (L.maxKeys / 2 - 1) := hAsc.mono (by omega)
    refine lowerBound_eq hMono ⟨hIndex, hBound.below, fun j hij hj => ?_⟩
    have hj' : j < L.maxKeys / 2 - 1 := hj
    exact hBound.above j hij (by omega)
  simp only [distributeInner]
  rw [if_pos hKey, hLeft]
  refine
    { size := by simp only [insertSeparator_size]; omega
      left_pos := by simp only [insertSeparator_size]; omega
      right_pos := by simp only; omega
      up := ?_
      left_keys := fun j hj => insertSeparator_keys hIndex (Nat.le_of_lt_succ hj)
      right_keys := fun j hj => ?_
      left_separators := fun j hj => insertSeparator_separators hIndex hj
      right_separators := fun j hj => ?_ }
  · show n.keys (L.maxKeys / 2 - 1) = insertSlot n.keys (n.index key) key (L.maxKeys / 2 - 1 + 1)
    rw [insertSlot_of_gt _ _ (by omega), Nat.add_sub_cancel]
  · have hj' : j < L.maxKeys - L.maxKeys / 2 := hj
    refine (move_keys hInner new (n.separators (L.maxKeys / 2)) hj').trans ?_
    simp only [insertSeparator_size]
    rw [insertSlot_of_gt _ _ (by omega)]
    congr 1
    omega
  · have hj' : j < L.maxKeys - L.maxKeys / 2 + 1 := Nat.lt_succ_of_le hj
    simp only [insertSeparator_size]
    rw [insertSlot_of_gt _ _ (by omega)]
    cases j with
    | zero =>
        show n.separators (L.maxKeys / 2) = _
        congr 1
        omega
    | succ j =>
        refine (move_separators hInner new (n.separators (L.maxKeys / 2))
          (Nat.lt_of_succ_lt_succ hj')).trans ?_
        congr 1
        omega

/-- Second branch: the new key is between the middle keys, and goes up. -/
theorem cutAt_middle (hLeftKey : ¬ key < n.innerKey (L.maxKeys / 2 - 1))
    (hKey : key < n.innerKey (L.maxKeys / 2)) (separator : Ptr) (new : Node K V) :
    let d := n.distributeInner L new key separator
    CutAt d.1 d.2.1 d.2.2 (insertSlot n.keys (n.index key) key)
      (insertSlot n.separators (n.index key + 1) separator) (L.maxKeys + 1) := by
  have hTwo := L.two_le_maxKeys
  have hIndex : n.index key = L.maxKeys / 2 := by
    refine lowerBound_eq hAsc ⟨by omega, fun j hj => ?_, fun j hij hj => ?_⟩
    · have hle : n.keys j ≤ key :=
        le_trans (hAsc.le (by omega) (by omega)) (not_lt.mp hLeftKey)
      exact lt_of_le_of_ne hle (hNew j (by omega))
    · exact le_trans hKey.le (hAsc.le hij hj)
  simp only [distributeInner]
  rw [if_neg hLeftKey, if_pos hKey, hIndex]
  refine
    { size := by simp only; omega
      left_pos := by simp only; omega
      right_pos := by simp only; omega
      up := (insertSlot_self _ _ _).symm
      left_keys := fun j hj => (insertSlot_of_lt _ _ hj).symm
      right_keys := fun j hj => ?_
      left_separators := fun j hj => (insertSlot_of_lt _ _ (Nat.lt_succ_of_le hj)).symm
      right_separators := fun j hj => ?_ }
  · have hj' : j < L.maxKeys - L.maxKeys / 2 := hj
    refine (move_keys hInner new separator hj').trans ?_
    simp only
    rw [insertSlot_of_gt _ _ (by omega)]
    congr 1
    omega
  · have hj' : j < L.maxKeys - L.maxKeys / 2 + 1 := Nat.lt_succ_of_le hj
    cases j with
    | zero => exact (insertSlot_self ..).symm
    | succ j =>
        refine (move_separators hInner new separator (Nat.lt_of_succ_lt_succ hj')).trans ?_
        simp only
        rw [insertSlot_of_gt _ _ (by omega)]
        rfl

/-- Third branch: the new key is behind both middle keys. -/
theorem cutAt_right (hLeftKey : ¬ key < n.innerKey (L.maxKeys / 2 - 1))
    (hKey : ¬ key < n.innerKey (L.maxKeys / 2)) (separator : Ptr) (new : Node K V) :
    let d := n.distributeInner L new key separator
    CutAt d.1 d.2.1 d.2.2 (insertSlot n.keys (n.index key) key)
      (insertSlot n.separators (n.index key + 1) separator) (L.maxKeys + 1) := by
  have hTwo := L.two_le_maxKeys
  have hBound := index_isLowerBound hAsc key
  have hIndex : L.maxKeys / 2 + 1 ≤ n.index key :=
    hBound.lt_of_le (by omega) (not_lt.mp hKey) (hNew (L.maxKeys / 2) (by omega))
  have hLe := hBound.le
  obtain ⟨right, hDef⟩ : ∃ right : Node K V, right =
      { (n.move new (L.maxKeys / 2 + 1) (L.maxKeys - L.maxKeys / 2 - 1)).setSeparator 0
          (n.separators (L.maxKeys / 2 + 1)) with
        size := L.maxKeys - L.maxKeys / 2 - 1 } := ⟨_, rfl⟩
  have hSize : right.size = L.maxKeys - L.maxKeys / 2 - 1 := by rw [hDef]
  have hKeys : ∀ j < right.size, right.keys j = n.keys (L.maxKeys / 2 + 1 + j) := by
    intro j hj
    rw [hSize] at hj
    rw [hDef]
    exact move_keys hInner new (n.separators (L.maxKeys / 2 + 1)) hj
  have hSeparators : ∀ j < right.size + 1,
      right.separators j = n.separators (L.maxKeys / 2 + 1 + j) := by
    intro j hj
    rw [hSize] at hj
    rw [hDef]
    cases j with
    | zero => rfl
    | succ j =>
        refine (move_separators hInner new (n.separators (L.maxKeys / 2 + 1))
          (Nat.lt_of_succ_lt_succ hj)).trans ?_
        congr 1
        omega
  -- the search in the right half finds the slot that many places on
  have hFound : right.index key = n.index key - (L.maxKeys / 2 + 1) := by
    refine lowerBound_eq (fun i j hij hj => ?_) ⟨by omega, fun j hj => ?_, fun j hij hj => ?_⟩
    · rw [hKeys i (by omega), hKeys j hj]
      exact hAsc _ _ (by omega) (by omega)
    · rw [hKeys j (by omega)]
      exact hBound.below _ (by omega)
    · rw [hKeys j hj]
      exact hBound.above _ (by omega) (by omega)
  simp only [distributeInner]
  rw [if_neg hLeftKey, if_neg hKey, ← hDef, hFound]
  refine
    { size := by simp only [insertSeparator_size]; omega
      left_pos := by simp only; omega
      right_pos := by simp only [insertSeparator_size]; omega
      up := (insertSlot_of_lt _ _ hIndex).symm
      left_keys := fun j hj => (insertSlot_of_lt _ _ (lt_of_lt_of_le hj (by simp only; omega))).symm
      right_keys := fun j hj => ?_
      left_separators := fun j hj => (insertSlot_of_lt _ _ (by simp only at hj; omega)).symm
      right_separators := fun j hj => ?_ }
  · rw [insertSeparator_size] at hj
    rw [insertSeparator_keys (by omega) (by omega)]
    exact insertSlot_shift key hIndex (by omega) hKeys (by omega)
  · rw [insertSeparator_size] at hj
    rw [insertSeparator_separators (by omega) (by omega),
      show n.index key - (L.maxKeys / 2 + 1) + 1 = n.index key + 1 - (L.maxKeys / 2 + 1) by omega]
    exact insertSlot_shift separator (by omega) (by omega) hSeparators hj

/-- Whichever branch it takes, the arrays with the new key and separator are cut in the middle. -/
theorem cutAt_distributeInner (separator : Ptr) (new : Node K V) :
    let d := n.distributeInner L new key separator
    CutAt d.1 d.2.1 d.2.2 (insertSlot n.keys (n.index key) key)
      (insertSlot n.separators (n.index key + 1) separator) (L.maxKeys + 1) := by
  by_cases hLeftKey : key < n.innerKey (L.maxKeys / 2 - 1)
  · exact cutAt_left hInner hFull hAsc hLeftKey separator new
  · by_cases hKey : key < n.innerKey (L.maxKeys / 2)
    · exact cutAt_middle hInner hFull hAsc hNew hLeftKey hKey separator new
    · exact cutAt_right hInner hFull hAsc hNew hLeftKey hKey separator new

omit hNew hAsc hFull in
/-- The split leaves the headers alone. -/
theorem distributeInner_header (key : K) (separator : Ptr) (new : Node K V) :
    SameHeader n (n.distributeInner L new key separator).1 ∧
      SameHeader new (n.distributeInner L new key separator).2.1 := by
  simp only [distributeInner, move_inner hInner]
  split
  · exact ⟨⟨rfl, rfl, rfl, rfl⟩, ⟨rfl, rfl, rfl, rfl⟩⟩
  · split
    · exact ⟨⟨rfl, rfl, rfl, rfl⟩, ⟨rfl, rfl, rfl, rfl⟩⟩
    · exact ⟨⟨rfl, rfl, rfl, rfl⟩, ⟨rfl, rfl, rfl, rfl⟩⟩

end Inner

/-- What an inner split leaves in the two halves, with the key that goes up as
the low bound of the right one. -/
structure InnerSplit (L : Layout K V) (n new : Node K V) (low : K) (g : K → Option Ptr)
    (d : Node K V × Node K V × K) : Prop where
  left : d.1.Routes low (below d.2.2 g)
  right : d.2.1.Routes d.2.2 (fromOn d.2.2 g)
  low_lt : low < d.2.2
  up_key : g d.2.2 ≠ none
  left_size : d.1.size ≤ L.maxKeys
  right_size : d.2.1.size ≤ L.maxKeys
  left_header : SameHeader n d.1
  right_header : SameHeader new d.2.1

/-- The separators with the new one are cut at the key that goes up. -/
theorem Routes.distributeInner (h : n.Routes low g) (hInner : n.isLeaf = false)
    (hFull : n.size = L.maxKeys) (hNew : g key = none) (hLow : low < key) (separator : Ptr)
    (new : Node K V) :
    InnerSplit L n new low (Function.update g key (some separator))
      (n.distributeInner L new key separator) := by
  have hAbsent : ∀ i < n.size, n.keys i ≠ key := by
    intro i hi hEq
    have hGet := h.get_succ hi
    rw [hEq, hNew] at hGet
    exact absurd hGet (by simp)
  have hInsert := Represents.insert (v := separator) h (h.index_isLowerBound hLow) hNew
  rw [← insertSlot_zero_insertSlot] at hInsert
  have hCut := cutAt_distributeInner hInner hFull h.ascending_keys hAbsent separator new
  have hHeader := distributeInner_header (L := L) hInner key separator new
  generalize n.distributeInner L new key separator = d at hCut hHeader ⊢
  have hTotal := hCut.size
  have hLeftPos := hCut.left_pos
  have hRightPos := hCut.right_pos
  -- with the low bound in front the key that goes up is in the slot behind the left keys
  have hUp : insertSlot (insertSlot n.keys (n.index key) key) 0 low (d.1.size + 1) = d.2.2 := by
    rw [insertSlot_zero_succ, hCut.up]
  have hLess : d.1.size + 1 < n.size + 1 + 1 := by omega
  have hLeft := hInsert.cutBelow hLess
  have hRight := hInsert.cutFrom hLess
  have hLowUp := hInsert.ascending 0 (d.1.size + 1) (by omega) hLess
  have hGet := hInsert.get hLess
  rw [hUp] at hLeft hRight hLowUp hGet
  refine
    { left := hLeft.congr (fun j hj => ?_) fun j hj => ?_
      right := ?_
      low_lt := by simpa using hLowUp
      up_key := by simp [hGet]
      left_size := by omega
      right_size := by omega
      left_header := hHeader.1
      right_header := hHeader.2 }
  · cases j with
    | zero => simp
    | succ j =>
        rw [insertSlot_zero_succ, insertSlot_zero_succ]
        exact hCut.left_keys j (by omega)
  · exact hCut.left_separators j (Nat.le_of_lt_succ hj)
  · rw [show n.size + 1 + 1 - (d.1.size + 1) = d.2.1.size + 1 by omega] at hRight
    refine hRight.congr (fun j hj => ?_) fun j hj => ?_
    · cases j with
      | zero => rw [insertSlot_self, Nat.add_zero, hUp]
      | succ j =>
          rw [insertSlot_zero_succ, ← Nat.add_assoc, insertSlot_zero_succ]
          exact hCut.right_keys j (by omega)
    · exact hCut.right_separators j (Nat.le_of_lt_succ hj)

/-- The guard under which `split` sets the parent of the separator itself is that the
separator stays in the left half. -/
theorem distributeInner_lt_upKey_iff (n new : Node K V) (key : K) (separator : Ptr) :
    key < (n.distributeInner L new key separator).2.2 ↔
      key < n.innerKey (L.maxKeys / 2 - 1) := by
  simp only [Node.distributeInner]
  by_cases hLeftKey : key < n.innerKey (L.maxKeys / 2 - 1)
  · rw [if_pos hLeftKey]
    exact Iff.rfl
  · rw [if_neg hLeftKey]
    by_cases hKey : key < n.innerKey (L.maxKeys / 2)
    · rw [if_pos hKey]
      exact iff_of_false (lt_irrefl key) hLeftKey
    · rw [if_neg hKey]
      exact iff_of_false hKey hLeftKey

end MxTasking.BLinkTree.Node
