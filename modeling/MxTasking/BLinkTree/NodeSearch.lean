import MxTasking.BLinkTree.NodeSpec
import MxTasking.Verified.TransitionSystem
import Mathlib.Data.Nat.Count

/-!
# Searching and inserting in an inner node

The two searches of `node.h`: `index` is a lower bound, `child` an upper bound written out with
signed 16-bit indices.  `Node.child` has no widths and no end of the memory; `childSearch` is
the same loop with the conversions of the source and with the slots it reads.

## Main results

* `exists_finds` — the loop ends, reads live keys only and stops behind the keys not above.
* `finds_child` — it finds what `Node.child` is.
* `search_insert_spec` — an insertion at `index(key)` changes the child of the keys from there to
  the next larger key, and of no other.
-/

namespace MxTasking.BLinkTree.Node

open MxTasking.Verified MxTasking.Verified.Slots

variable {K V : Type*}

/-! ## The program -/

/-- An `int` that is stored in a `std::int16_t`. -/
def toInt16 (x : Int) : Int := Int.bmod x (2 ^ 16)

/-- `low` and `high` of the loop, and the slots it has read. -/
structure ChildWindow where
  low : Int
  high : Int
  reads : List Nat

/-- The loop of `child`; `none` if it has not ended in `fuel` rounds. -/
def childSearch [LE K] [DecidableLE K] (n : Node K V) (key : K) :
    Nat → ChildWindow → Option (Ptr × List Nat)
  | 0, _ => none
  | fuel + 1, w =>
      if w.low ≤ w.high then
        -- the sum is an `int`, its index a `std::uint16_t`
        let mid := (w.low + w.high) / 2
        let slot := (mid % 2 ^ 16).toNat
        if n.innerKey slot ≤ key then
          n.childSearch key fuel ⟨toInt16 (mid + 1), w.high, w.reads ++ [slot]⟩
        else n.childSearch key fuel ⟨w.low, toInt16 (mid - 1), w.reads ++ [slot]⟩
      else some (n.separators ((w.high + 1) % 2 ^ 32).toNat, w.reads)

/-- Where `child` starts. -/
def childWindow (n : Node K V) : ChildWindow := ⟨0, toInt16 (n.size - 1), []⟩

/-- `child(key)` ends with `separator` and reads live keys only. -/
def Finds [LE K] [DecidableLE K] (n : Node K V) (key : K) (separator : Ptr) : Prop :=
  ∃ reads : List Nat, (∀ i ∈ reads, i < n.size) ∧
    ∀ fuel, n.size < fuel → n.childSearch key fuel n.childWindow = some (separator, reads)

/-! ## The search -/

variable [LinearOrder K] {n : Node K V} {key : K} {separator : Ptr}

theorem toInt16_of_lt {x : Int} (hLow : -1 ≤ x) (hHigh : x < 2 ^ 15) : toInt16 x = x := by
  unfold toInt16
  rw [Int.bmod_eq_of_le] <;> omega

/-- The keys in front of slot `i` are not above `key`, the others are. -/
structure UpperBound (n : Node K V) (key : K) (i : Nat) : Prop where
  le : i ≤ n.size
  below : ∀ j < i, n.keys j ≤ key
  above : ∀ j, i ≤ j → j < n.size → key < n.keys j

/-- What is known of the window: the keys left of it are not above `key`, the keys right of it
are, and `rounds` bounds its width. -/
structure ChildWindow.Ok (n : Node K V) (key : K) (w : ChildWindow) (rounds : Nat) : Prop where
  low : 0 ≤ w.low
  high : w.high < n.size
  width : w.high + 1 - w.low = rounds
  below : ∀ j : Nat, (j : Int) < w.low → n.keys j ≤ key
  above : ∀ j : Nat, w.high < j → j < n.size → key < n.keys j
  reads : ∀ i ∈ w.reads, i < n.size

/-- One round shrinks the window. -/
theorem ChildWindow.Ok.round {w : ChildWindow} {rounds : Nat} (hAsc : Ascending n.keys n.size)
    (hSize : n.size < 2 ^ 15) (h : w.Ok n key rounds) (hle : w.low ≤ w.high) :
    ∃ w' rounds', w'.Ok n key rounds' ∧ rounds' < rounds ∧
      ∀ fuel, n.childSearch key (fuel + 1) w = n.childSearch key fuel w' := by
  have hLow := h.low
  have hHigh := h.high
  have hWidth := h.width
  obtain ⟨mid, hMid⟩ : ∃ mid : Nat, (w.low + w.high) / 2 = mid :=
    ⟨((w.low + w.high) / 2).toNat, by omega⟩
  have hMidLow : w.low ≤ mid := by omega
  have hMidHigh : (mid : Int) ≤ w.high := by omega
  have hSlot : ((mid : Int) % 2 ^ 16).toNat = mid := by omega
  have hReads : ∀ i ∈ w.reads ++ [mid], i < n.size := by
    intro i hi
    rw [List.mem_append, List.mem_singleton] at hi
    cases hi with
    | inl hOld => exact h.reads i hOld
    | inr hNew => omega
  by_cases hKey : n.keys mid ≤ key
  · refine ⟨⟨mid + 1, w.high, w.reads ++ [mid]⟩, (w.high - mid).toNat, ?_, by omega, ?_⟩
    · refine ⟨by simp only; omega, hHigh, by simp only; omega, ?_, h.above, hReads⟩
      intro j hj
      exact le_trans (hAsc.le (by simp only at hj; omega) (by omega)) hKey
    · intro fuel
      rw [childSearch, if_pos hle]
      simp only [hMid, hSlot, innerKey]
      rw [if_pos hKey, toInt16_of_lt (by omega) (by omega)]
  · refine ⟨⟨w.low, mid - 1, w.reads ++ [mid]⟩, (mid - w.low).toNat, ?_, by omega, ?_⟩
    · refine ⟨hLow, by simp only; omega, by simp only; omega, h.below, ?_, hReads⟩
      intro j hj hjn
      exact lt_of_lt_of_le (not_le.mp hKey) (hAsc.le (by simp only at hj; omega) hjn)
    · intro fuel
      rw [childSearch, if_pos hle]
      simp only [hMid, hSlot, innerKey]
      rw [if_neg hKey, toInt16_of_lt (by omega) (by omega)]

/-- With an empty window the search is over. -/
theorem ChildWindow.Ok.done {w : ChildWindow} {rounds : Nat} (hSize : n.size < 2 ^ 15)
    (h : w.Ok n key rounds) (hgt : ¬ w.low ≤ w.high) :
    ∃ i, n.UpperBound key i ∧
      ∀ fuel, n.childSearch key (fuel + 1) w = some (n.separators i, w.reads) := by
  have hLow := h.low
  have hHigh := h.high
  have hWidth := h.width
  refine ⟨(w.high + 1).toNat, ⟨by omega, ?_, ?_⟩, ?_⟩
  · intro j hj
    exact h.below j (by omega)
  · intro j hij hj
    exact h.above j (by omega) hj
  · intro fuel
    rw [childSearch, if_neg hgt, show (w.high + 1) % 2 ^ 32 = w.high + 1 by omega]

/-- The search ends at the upper bound of the key. -/
theorem exists_finds (hAsc : Ascending n.keys n.size) (hSize : n.size < 2 ^ 15) (key : K) :
    ∃ i, n.UpperBound key i ∧ n.Finds key (n.separators i) := by
  have hStart : n.childWindow.Ok n key n.size := by
    unfold childWindow
    rw [toInt16_of_lt (by omega) (by omega)]
    refine ⟨le_refl _, by simp only; omega, by simp only; omega, ?_, ?_, by simp⟩
    · intro j hj
      simp only at hj
      omega
    · intro j hj hjn
      simp only at hj
      omega
  have hEnd := loop_ends (f := n.childSearch key) (P := fun w rounds => w.Ok n key rounds)
    (Q := fun r => ∃ i, n.UpperBound key i ∧ r.1 = n.separators i ∧ ∀ i ∈ r.2, i < n.size)
    (fun w rounds h => by
      by_cases hle : w.low ≤ w.high
      · exact Or.inr (h.round hAsc hSize hle)
      · obtain ⟨i, hi, hDone⟩ := h.done hSize hle
        exact Or.inl ⟨_, ⟨i, hi, rfl, h.reads⟩, hDone⟩)
    n.size n.childWindow hStart
  obtain ⟨r, ⟨i, hi, hSep, hReads⟩, hFuel⟩ := hEnd
  refine ⟨i, hi, r.2, hReads, fun fuel hMore => ?_⟩
  rw [hFuel fuel hMore, ← hSep]

theorem UpperBound.unique {i j : Nat} (hi : n.UpperBound key i) (hj : n.UpperBound key j) :
    i = j := by
  rcases Nat.lt_trichotomy i j with hlt | hEq | hgt
  · exact absurd (hj.below i hlt) (not_le.mpr (hi.above i (le_refl i) (by have := hj.le; omega)))
  · exact hEq
  · exact absurd (hi.below j hgt) (not_le.mpr (hj.above j (le_refl j) (by have := hi.le; omega)))

/-- The search finds the separator at the upper bound. -/
theorem UpperBound.finds {i : Nat} (h : n.UpperBound key i) (hAsc : Ascending n.keys n.size)
    (hSize : n.size < 2 ^ 15) : n.Finds key (n.separators i) := by
  obtain ⟨j, hj, hFinds⟩ := exists_finds hAsc hSize key
  rwa [h.unique hj]

theorem Finds.unique {s s' : Ptr} (h : n.Finds key s) (h' : n.Finds key s') : s = s' := by
  obtain ⟨reads, -, hFuel⟩ := h
  obtain ⟨reads', -, hFuel'⟩ := h'
  have hEq := (hFuel (n.size + 1) (Nat.lt_succ_self _)).symm.trans
    (hFuel' (n.size + 1) (Nat.lt_succ_self _))
  exact (Prod.mk.inj (Option.some.inj hEq)).1

/-- The upper bound is the number of keys that are not above. -/
theorem UpperBound.eq_count {i : Nat} (h : n.UpperBound key i) :
    i = Nat.count (fun j => n.keys j ≤ key) n.size := by
  obtain ⟨m, hm⟩ := Nat.exists_eq_add_of_le h.le
  have hBelow : Nat.count (fun j => n.keys j ≤ key) i = i :=
    Nat.count_iff_forall.mpr h.below
  have hAbove : Nat.count (fun j => n.keys (i + j) ≤ key) m = 0 := by
    rw [Nat.count_iff_forall_not]
    intro j hj
    exact not_le.mpr (h.above (i + j) (Nat.le_add_right i j) (by omega))
  rw [hm, Nat.count_add, hBelow, hAbove, Nat.add_zero]

/-- `child(key)` in natural numbers is what the search finds. -/
theorem finds_child (hAsc : Ascending n.keys n.size) (hSize : n.size < 2 ^ 15) (key : K) :
    n.Finds key (n.child key) := by
  obtain ⟨i, hi, hChild, hBelow, hAbove⟩ := child_spec hAsc key
  rw [hChild]
  exact UpperBound.finds ⟨hi, hBelow, hAbove⟩ hAsc hSize

/-! ## The insertion -/

/-- `insert(index(key), separator, key)`. -/
def inserted (n : Node K V) (key : K) (separator : Ptr) : Node K V :=
  n.insertSeparator (n.index key) separator key

/-- `x` is from `key` on and below the next larger key of the node. -/
def FirstAbove (n : Node K V) (key x : K) : Prop :=
  key ≤ x ∧ ∀ i < n.size, key < n.keys i → x < n.keys i

section Insertion

variable {x : K} {i : Nat}

theorem inserted_keys (hAsc : Ascending n.keys n.size) {j : Nat} (hj : j ≤ n.size) :
    (n.inserted key separator).keys j = insertSlot n.keys (n.index key) key j :=
  insertSeparator_keys (index_isLowerBound hAsc key).le hj

theorem inserted_separators (hAsc : Ascending n.keys n.size) {j : Nat} (hj : j ≤ n.size + 1) :
    (n.inserted key separator).separators j =
      insertSlot n.separators (n.index key + 1) separator j :=
  insertSeparator_separators (index_isLowerBound hAsc key).le hj

/-- Keys behind `index(key)` are above a new key. -/
theorem lt_of_index_le (hAsc : Ascending n.keys n.size) (hNew : ∀ i < n.size, n.keys i ≠ key)
    {j : Nat} (hj : n.index key ≤ j) (hjn : j < n.size) : key < n.keys j :=
  lt_of_le_of_ne ((index_isLowerBound hAsc key).above j hj hjn) (hNew j hjn).symm

theorem ascending_inserted (hAsc : Ascending n.keys n.size)
    (hNew : ∀ i < n.size, n.keys i ≠ key) (separator : Ptr) :
    Ascending (n.inserted key separator).keys (n.size + 1) := by
  have hBound := index_isLowerBound hAsc key
  have hSlots : Ascending (insertSlot n.keys (n.index key) key) (n.size + 1) :=
    Represents.ascending_insertSlot hAsc hBound hNew
  refine hSlots.congr fun j hj => ?_
  exact inserted_keys hAsc (Nat.le_of_lt_succ hj)

/-- Keys below the new one are routed as before. -/
theorem UpperBound.inserted_of_lt (h : n.UpperBound x i) (hAsc : Ascending n.keys n.size)
    (hx : x < key) (separator : Ptr) :
    i ≤ n.index key ∧ (n.inserted key separator).UpperBound x i := by
  have hBound := index_isLowerBound hAsc key
  have hi : i ≤ n.index key := by
    by_contra hgt
    have hAbove := hBound.above (n.index key) (le_refl _) (by have := h.le; omega)
    exact absurd (hAbove.trans (h.below _ (not_le.mp hgt))) (not_le.mpr hx)
  refine ⟨hi, Nat.le_succ_of_le h.le, ?_, ?_⟩
  · intro j hj
    rw [inserted_keys hAsc (by have := h.le; omega), insertSlot_of_lt _ _ (by omega)]
    exact h.below j hj
  · intro j hij hjn
    have hj : j ≤ n.size := Nat.le_of_lt_succ hjn
    rw [inserted_keys hAsc hj]
    rcases Nat.lt_trichotomy j (n.index key) with hlt | hEq | hgt
    · rw [insertSlot_of_lt _ _ hlt]
      exact h.above j hij (lt_of_lt_of_le hlt hBound.le)
    · rw [hEq, insertSlot_self]
      exact hx
    · rw [insertSlot_of_gt _ _ hgt]
      exact h.above (j - 1) (by omega) (by omega)

/-- The new key counts for the keys from it on. -/
theorem UpperBound.inserted_of_le (h : n.UpperBound x i) (hAsc : Ascending n.keys n.size)
    (hx : key ≤ x) (separator : Ptr) :
    n.index key ≤ i ∧ (n.inserted key separator).UpperBound x (i + 1) := by
  have hBound := index_isLowerBound hAsc key
  have hi : n.index key ≤ i := by
    by_contra hlt
    have hBelow := hBound.below i (not_le.mp hlt)
    have hAbove := h.above i (le_refl i) (by have := hBound.le; omega)
    exact absurd (hAbove.trans hBelow) (not_lt.mpr hx)
  refine ⟨hi, Nat.succ_le_succ h.le, ?_, ?_⟩
  · intro j hj
    rw [inserted_keys hAsc (by have := h.le; omega)]
    rcases Nat.lt_trichotomy j (n.index key) with hlt | hEq | hgt
    · rw [insertSlot_of_lt _ _ hlt]
      exact h.below j (by omega)
    · rw [hEq, insertSlot_self]
      exact hx
    · rw [insertSlot_of_gt _ _ hgt]
      exact h.below (j - 1) (by omega)
  · intro j hij hjn
    have hj : j ≤ n.size := Nat.le_of_lt_succ hjn
    rw [inserted_keys hAsc hj, insertSlot_of_gt _ _ (by omega)]
    exact h.above (j - 1) (by omega) (by omega)

/-- The keys that the new separator is for are those whose upper bound is `index(key)`. -/
theorem UpperBound.firstAbove_iff (h : n.UpperBound x i) (hAsc : Ascending n.keys n.size)
    (hNew : ∀ i < n.size, n.keys i ≠ key) (hx : key ≤ x) :
    n.FirstAbove key x ↔ i = n.index key := by
  have hBound := index_isLowerBound hAsc key
  have hi := (h.inserted_of_le hAsc hx none).1
  constructor
  · rintro ⟨-, hNext⟩
    by_contra hne
    have hlt : n.index key < i := lt_of_le_of_ne hi (Ne.symm hne)
    have hSize : n.index key < n.size := lt_of_lt_of_le hlt h.le
    have hAbove := hNext _ hSize (lt_of_index_le hAsc hNew (le_refl _) hSize)
    exact absurd (h.below _ hlt) (not_le.mpr hAbove)
  · rintro rfl
    refine ⟨hx, fun j hj hKey => ?_⟩
    apply h.above j _ hj
    by_contra hlt
    exact absurd (hBound.below j (not_le.mp hlt)) (not_lt.mpr hKey.le)

/-- The search after the insertion. -/
theorem finds_inserted (hAsc : Ascending n.keys n.size) (hSize : n.size + 1 < 2 ^ 15)
    (hNew : ∀ i < n.size, n.keys i ≠ key) :
    (n.FirstAbove key x → (n.inserted key separator).Finds x separator) ∧
      ∀ s, ¬ n.FirstAbove key x → n.Finds x s → (n.inserted key separator).Finds x s := by
  have hAsc' := ascending_inserted hAsc hNew separator
  obtain ⟨i, hi, hFinds⟩ := exists_finds hAsc (by omega) x
  by_cases hx : key ≤ x
  · obtain ⟨hIndex, hUpper⟩ := hi.inserted_of_le hAsc hx separator
    have hFinds' := hUpper.finds hAsc' hSize
    rw [inserted_separators hAsc (Nat.add_le_add_right hi.le 1)] at hFinds'
    rw [hi.firstAbove_iff hAsc hNew hx]
    refine ⟨fun hEq => ?_, fun s hne hOld => ?_⟩
    · rwa [hEq, insertSlot_self] at hFinds'
    · rw [insertSlot_of_gt _ _ (by omega), Nat.add_sub_cancel] at hFinds'
      rwa [hOld.unique hFinds]
  · obtain ⟨hIndex, hUpper⟩ := hi.inserted_of_lt hAsc (not_le.mp hx) separator
    have hFinds' := hUpper.finds hAsc' hSize
    rw [inserted_separators hAsc (Nat.le_succ_of_le hi.le), insertSlot_of_lt _ _ (by omega)]
      at hFinds'
    refine ⟨fun hFirst => absurd hFirst.1 hx, fun s _ hOld => ?_⟩
    rwa [hOld.unique hFinds]

end Insertion

/-- Search and insertion agree.  A node with at most `maxKeys` ascending keys: the search ends
within the live keys at the separator behind the keys that are not above; and if there is
room for a key that is not there yet, its insertion leaves the keys ascending and puts
the new separator in charge of the keys from there to the next larger one, and of no other. -/
theorem search_insert_spec {maxKeys : Nat} (hMax : maxKeys < 2 ^ 15) (hInner : n.isInner = true)
    (hSize : n.size ≤ maxKeys) (hAsc : Ascending n.keys n.size) :
    (∀ x, n.Finds x (n.separators (Nat.count (fun i => n.keys i ≤ x) n.size))) ∧
    ∀ key separator, n.size < maxKeys → (∀ i < n.size, n.keys i ≠ key) →
      (n.inserted key separator).isInner = true ∧
      (n.inserted key separator).size = n.size + 1 ∧
      Ascending (n.inserted key separator).keys (n.inserted key separator).size ∧
      ∀ x, (n.FirstAbove key x → (n.inserted key separator).Finds x separator) ∧
        ∀ s, ¬ n.FirstAbove key x → n.Finds x s → (n.inserted key separator).Finds x s := by
  constructor
  · intro x
    obtain ⟨i, hi, hFinds⟩ := exists_finds hAsc (by omega) x
    rwa [hi.eq_count] at hFinds
  · intro key separator hRoom hNew
    refine ⟨hInner, rfl, ascending_inserted hAsc hNew separator, fun x => ?_⟩
    exact finds_inserted hAsc (by omega) hNew

/-- A node with the keys 10 and 20. -/
def twoKeys : Node Nat Nat where
  nodeType := .inner
  highKey := 100
  rightSibling := none
  parent := none
  size := 2
  keys i := if i = 0 then 10 else 20
  values _ := 0
  separators i := some i

theorem search_insert_spec_twoKeys : twoKeys.Finds 15 (some 1) ∧
    (twoKeys.inserted 12 (some 7)).Finds 15 (some 7) := by
  have hAsc : Ascending twoKeys.keys twoKeys.size := by
    intro i j hij hj
    simp only [twoKeys] at hj ⊢
    rw [if_pos (by omega), if_neg (by omega)]
    decide
  have hSpec := search_insert_spec (show 4 < 2 ^ 15 by decide) (show twoKeys.isInner = true by rfl)
    (show twoKeys.size ≤ 4 by decide) hAsc
  refine ⟨hSpec.1 15, ?_⟩
  have hNew : ∀ i < twoKeys.size, twoKeys.keys i ≠ 12 := by
    intro i _
    simp only [twoKeys]
    split <;> decide
  have hInserted := hSpec.2 12 (some 7) (by decide) hNew
  apply (hInserted.2.2.2 15).1
  refine ⟨by decide, fun i _ hKey => ?_⟩
  simp only [twoKeys] at hKey ⊢
  split at hKey
  · exact absurd hKey (by decide)
  · rw [if_neg ‹_›]
    decide

end MxTasking.BLinkTree.Node
