import Mathlib.Order.Lattice
import Mathlib.Logic.Function.Basic
import Mathlib.Data.List.Sort

/-!
# Slot arrays

The program keeps its records in fixed arrays that are shifted with `memmove`,
cut with `memcpy` and searched with `std::lower_bound`.  An array is
modelled by the function from slot index to slot contents.  The function is total: slots
past the live ones exist in memory and hold whatever was left there, so
nothing in this module assumes that a slot behind the length is empty.

The value of a pair of arrays `a`, `b` with `n` live slots is the
finite map `f` they represent (`Represents a b n f`): strictly ascending keys in `a`,
payloads in `b`.  Every array operation of the program is an instance of three facts:
inserting at the lower bound is a point update of `f`, keeping a prefix
restricts `f` to the keys below the cut, and copying a suffix restricts it to
the keys from the cut on.

## Main results

* `shift_eq_insertSlot` — one `memmove` by one slot and one store insert a slot.
* `firstSlots_insertSlot`, `insertIdx_firstSlots` — the same in terms of lists.
* `lowerBound_isLowerBound` — the halving search finds the lower bound.
* `Represents.insert`, `Represents.cutBelow`, `Represents.cutFrom`.
-/

namespace MxTasking.Verified.Slots

variable {α β K : Type*}

/-! ## Copying and shifting -/

/-- `memcpy(&dst[d], &src[s], count)`: slots `d, …, d + count − 1` of `dst`
receive the `count` slots of `src` from `s` on. -/
def memcpy (dst src : Nat → α) (d s count : Nat) : Nat → α := fun j =>
  if d ≤ j ∧ j < d + count then src (s + (j - d)) else dst j

theorem memcpy_of_mem (dst src : Nat → α) {d s count j : Nat} (hd : d ≤ j)
    (hj : j < d + count) : memcpy dst src d s count j = src (s + (j - d)) :=
  if_pos ⟨hd, hj⟩

/-- `memmove` inside one array: all slots are read before one is written. -/
def memmove (a : Nat → α) (d s count : Nat) : Nat → α := memcpy a a d s count

/-- `a` with `x` inserted at slot `i` and every later slot moved up by one. -/
def insertSlot (a : Nat → α) (i : Nat) (x : α) : Nat → α := fun j =>
  if j < i then a j else if j = i then x else a (j - 1)

@[simp] theorem insertSlot_zero (a : Nat → α) (x : α) : insertSlot a 0 x 0 = x := by
  simp [insertSlot]

@[simp] theorem insertSlot_zero_succ (a : Nat → α) (x : α) (j : Nat) :
    insertSlot a 0 x (j + 1) = a j := by
  simp [insertSlot]

@[simp] theorem insertSlot_self (a : Nat → α) (i : Nat) (x : α) :
    insertSlot a i x i = x := by
  simp [insertSlot]

theorem insertSlot_of_lt (a : Nat → α) {i j : Nat} (x : α) (h : j < i) :
    insertSlot a i x j = a j := by
  simp [insertSlot, h]

theorem insertSlot_of_gt (a : Nat → α) {i j : Nat} (x : α) (h : i < j) :
    insertSlot a i x j = a (j - 1) := by
  simp [insertSlot, Nat.not_lt.mpr (Nat.le_of_lt h), Nat.ne_of_gt h]

/-- Moving the live slots from `i` on up by one and storing `x` at `i` is an
insertion, as far as the live slots go. -/
theorem shift_eq_insertSlot (a : Nat → α) {i n j : Nat} (x : α) (hi : i ≤ n)
    (hj : j ≤ n) :
    Function.update (if i < n then memmove a (i + 1) i (n - i) else a) i x j =
      insertSlot a i x j := by
  rcases Nat.lt_trichotomy j i with hlt | rfl | hgt
  · rw [Function.update_of_ne (Nat.ne_of_lt hlt), insertSlot_of_lt a x hlt]
    split
    · simp only [memmove, memcpy]
      rw [if_neg (by omega)]
    · rfl
  · simp
  · rw [Function.update_of_ne (Nat.ne_of_gt hgt), insertSlot_of_gt a x hgt,
      if_pos (by omega)]
    simp only [memmove, memcpy]
    rw [if_pos (by omega)]
    congr 1
    omega

/-- Two insertions commute when the first goes in front of everything. -/
theorem insertSlot_zero_insertSlot (a : Nat → α) (i : Nat) (x y : α) :
    insertSlot (insertSlot a i x) 0 y = insertSlot (insertSlot a 0 y) (i + 1) x := by
  funext j
  cases j with
  | zero => simp [insertSlot]
  | succ j =>
      rw [insertSlot_zero_succ]
      rcases Nat.lt_trichotomy j i with hlt | rfl | hgt
      · rw [insertSlot_of_lt a x hlt, insertSlot_of_lt _ x (by omega),
          insertSlot_zero_succ]
      · simp
      · rw [insertSlot_of_gt a x hgt, insertSlot_of_gt _ x (by omega)]
        obtain ⟨m, rfl⟩ : ∃ m, j = m + 1 := ⟨j - 1, by omega⟩
        simp

/-- Inserting into a part `b` of an array, which starts at slot `m` and has `n` slots. -/
theorem insertSlot_shift {a b : Nat → α} (x : α) {m i n j : Nat} (hi : m ≤ i) (hin : i ≤ m + n)
    (hPart : ∀ j < n, b j = a (m + j)) (hj : j ≤ n) :
    insertSlot b (i - m) x j = insertSlot a i x (m + j) := by
  rcases Nat.lt_trichotomy (m + j) i with hlt | hEq | hgt
  · rw [insertSlot_of_lt _ _ (by omega), insertSlot_of_lt _ _ hlt, hPart j (by omega)]
  · obtain rfl : j = i - m := by omega
    rw [hEq, insertSlot_self, insertSlot_self]
  · rw [insertSlot_of_gt _ _ (by omega), insertSlot_of_gt _ _ hgt, hPart (j - 1) (by omega)]
    congr 1
    omega

/-! ## Slots as lists -/

/-- The first `n` slots as a list. -/
def firstSlots (a : Nat → α) (n : Nat) : List α := (List.range n).map a

theorem firstSlots_succ (a : Nat → α) (n : Nat) :
    firstSlots a (n + 1) = a 0 :: firstSlots (fun j => a (j + 1)) n := by
  rw [firstSlots, List.range_succ_eq_map, List.map_cons, List.map_map]
  rfl

theorem firstSlots_add (a : Nat → α) (m n : Nat) :
    firstSlots a (m + n) = firstSlots a m ++ firstSlots (fun j => a (m + j)) n := by
  rw [firstSlots, List.range_add, List.map_append, List.map_map]
  rfl

theorem firstSlots_congr {a b : Nat → α} {n : Nat} (h : ∀ j < n, a j = b j) :
    firstSlots a n = firstSlots b n :=
  List.map_congr_left fun j hj => h j (List.mem_range.mp hj)

theorem mem_firstSlots {a : Nat → α} {n : Nat} {x : α} :
    x ∈ firstSlots a n ↔ ∃ j < n, a j = x := by
  simp [firstSlots]

/-- A slot inserted into the array is an element inserted into the list. -/
theorem firstSlots_insertSlot (a : Nat → α) {i n : Nat} (x : α) (hi : i ≤ n) :
    firstSlots (insertSlot a i x) (n + 1) = (firstSlots a n).insertIdx i x := by
  induction i generalizing a n with
  | zero =>
      rw [firstSlots_succ, insertSlot_zero, List.insertIdx_zero]
      congr 1
  | succ i ih =>
      obtain ⟨n, rfl⟩ : ∃ m, n = m + 1 := ⟨n - 1, by omega⟩
      rw [firstSlots_succ, firstSlots_succ a n, List.insertIdx_succ_cons,
        insertSlot_of_lt a x (Nat.succ_pos i), ← ih _ (Nat.le_of_succ_le_succ hi)]
      congr 1
      refine firstSlots_congr fun j hj => ?_
      simp only [insertSlot]
      grind

/-- Between the elements before it and those behind it, an element is in its place in an
ordered list. -/
theorem insertIdx_firstSlots {r : α → α → Prop} [DecidableRel r] (a : Nat → α) {i n : Nat} {x : α}
    (hi : i ≤ n) (hBelow : ∀ j < i, ¬ r x (a j)) (hAbove : i < n → r x (a i)) :
    (firstSlots a n).insertIdx i x = (firstSlots a n).orderedInsert r x := by
  induction i generalizing a n with
  | zero =>
      rw [List.insertIdx_zero]
      cases n with
      | zero => rfl
      | succ n =>
          rw [firstSlots_succ, List.orderedInsert, if_pos (hAbove (Nat.succ_pos n))]
  | succ i ih =>
      obtain ⟨n, rfl⟩ : ∃ m, n = m + 1 := ⟨n - 1, by omega⟩
      rw [firstSlots_succ, List.insertIdx_succ_cons, List.orderedInsert,
        if_neg (hBelow 0 (Nat.succ_pos i))]
      rw [ih _ (Nat.le_of_succ_le_succ hi) (fun j hj => hBelow (j + 1) (by omega))
        fun hLess => hAbove (by omega)]

/-! ## Searching -/

/-- The loop of `std::lower_bound` over `count` slots from `first` on.  Each
round halves `count`, so `fuel = count` rounds are enough. -/
def lowerBoundLoop [LT K] [DecidableLT K] (a : Nat → K) (x : K) :
    Nat → Nat → Nat → Nat
  | 0, first, _ => first
  | fuel + 1, first, count =>
      if count = 0 then first
      else if a (first + count / 2) < x then
        lowerBoundLoop a x fuel (first + count / 2 + 1) (count - (count / 2 + 1))
      else lowerBoundLoop a x fuel first (count / 2)

/-- `std::lower_bound` over the first `n` slots, as an index. -/
def lowerBound [LT K] [DecidableLT K] (a : Nat → K) (n : Nat) (x : K) : Nat :=
  lowerBoundLoop a x n 0 n

/-- The first `n` slots are strictly ascending. -/
def Ascending [LT K] (a : Nat → K) (n : Nat) : Prop :=
  ∀ i j, i < j → j < n → a i < a j

/-- `i` splits the first `n` slots into those below `x` and those from `x` on. -/
structure IsLowerBound [LT K] [LE K] (a : Nat → K) (n : Nat) (x : K) (i : Nat) :
    Prop where
  le : i ≤ n
  below : ∀ j, j < i → a j < x
  above : ∀ j, i ≤ j → j < n → x ≤ a j

section Search

variable [LinearOrder K] {a : Nat → K} {n : Nat} {x : K}

theorem Ascending.mono {m : Nat} (h : Ascending a n) (hm : m ≤ n) : Ascending a m :=
  fun i j hij hj => h i j hij (Nat.lt_of_lt_of_le hj hm)

theorem Ascending.congr {a' : Nat → K} (h : Ascending a n)
    (hEq : ∀ j, j < n → a' j = a j) : Ascending a' n := by
  intro i j hij hj
  rw [hEq i (by omega), hEq j hj]
  exact h i j hij hj

theorem Ascending.le {i j : Nat} (h : Ascending a n) (hij : i ≤ j) (hj : j < n) :
    a i ≤ a j := by
  rcases Nat.lt_or_eq_of_le hij with hlt | rfl
  · exact le_of_lt (h i j hlt hj)
  · exact le_refl _

/-- Strictly ascending slots hold each key once. -/
theorem Ascending.inj {i j : Nat} (h : Ascending a n) (hi : i < n) (hj : j < n)
    (hEq : a i = a j) : i = j := by
  rcases Nat.lt_trichotomy i j with hlt | hEqIdx | hgt
  · exact absurd hEq (ne_of_lt (h i j hlt hj))
  · exact hEqIdx
  · exact absurd hEq.symm (ne_of_lt (h j i hgt hi))

/-- The loop invariant of the search: everything left of the window is below
`x` and everything right of it is not. -/
theorem lowerBoundLoop_spec (hAsc : Ascending a n) :
    ∀ (fuel first count : Nat), count ≤ fuel → first + count ≤ n →
      (∀ j, j < first → a j < x) →
      (∀ j, first + count ≤ j → j < n → x ≤ a j) →
      IsLowerBound a n x (lowerBoundLoop a x fuel first count) := by
  intro fuel
  induction fuel with
  | zero =>
      intro first count hFuel hWin hBelow hAbove
      have hZero : count = 0 := by omega
      subst hZero
      exact ⟨hWin, hBelow, hAbove⟩
  | succ fuel ih =>
      intro first count hFuel hWin hBelow hAbove
      simp only [lowerBoundLoop]
      by_cases hZero : count = 0
      · subst hZero
        rw [if_pos rfl]
        exact ⟨hWin, hBelow, hAbove⟩
      · rw [if_neg hZero]
        have hHalf : count / 2 < count := by omega
        by_cases hMid : a (first + count / 2) < x
        · rw [if_pos hMid]
          refine ih _ _ (by omega) (by omega) ?_ ?_
          · intro j hj
            exact lt_of_le_of_lt (hAsc.le (by omega) (by omega)) hMid
          · intro j hj hjn
            exact hAbove j (by omega) hjn
        · rw [if_neg hMid]
          refine ih _ _ (by omega) (by omega) hBelow ?_
          intro j hj hjn
          exact le_trans (not_lt.mp hMid) (hAsc.le hj hjn)

/-- The search returns the lower bound of `x` in ascending slots. -/
theorem lowerBound_isLowerBound (hAsc : Ascending a n) (x : K) :
    IsLowerBound a n x (lowerBound a n x) :=
  lowerBoundLoop_spec hAsc n 0 n (le_refl n) (by omega)
    (fun j hj => absurd hj (Nat.not_lt_zero j))
    (fun j hj hjn => absurd hjn (by omega))

/-- There is one lower bound. -/
theorem IsLowerBound.unique {x : K} {i j : Nat} (hi : IsLowerBound a n x i)
    (hj : IsLowerBound a n x j) : i = j := by
  rcases Nat.lt_trichotomy i j with hlt | hEq | hgt
  · have hLe := hj.le
    exact absurd (hj.below i hlt) (not_lt.mpr (hi.above i (Nat.le_refl i) (by omega)))
  · exact hEq
  · have hLe := hi.le
    exact absurd (hi.below j hgt) (not_lt.mpr (hj.above j (Nat.le_refl j) (by omega)))

/-- A slot above `x` is not in front of its lower bound. -/
theorem IsLowerBound.le_of_lt {x : K} {i m : Nat} (hi : IsLowerBound a n x i) (hm : x < a m) :
    i ≤ m := by
  by_contra hGreater
  exact absurd (hi.below m (not_le.mp hGreater)) (not_lt.mpr hm.le)

/-- A slot below `x` is in front of its lower bound. -/
theorem IsLowerBound.lt_of_le {x : K} {i m : Nat} (hi : IsLowerBound a n x i) (hm : m < n)
    (hle : a m ≤ x) (hne : a m ≠ x) : m < i := by
  by_contra hLess
  exact hne (le_antisymm hle (hi.above m (not_lt.mp hLess) hm))

/-- The search finds every lower bound. -/
theorem lowerBound_eq {x : K} {i : Nat} (hAsc : Ascending a n) (hi : IsLowerBound a n x i) :
    lowerBound a n x = i :=
  (lowerBound_isLowerBound hAsc x).unique hi

end Search

/-! ## The map a pair of arrays represents -/

/-- The first `n` slots of `a` and `b` are the finite map `f`. -/
structure Represents [LT K] (a : Nat → K) (b : Nat → β) (n : Nat)
    (f : K → Option β) : Prop where
  ascending : Ascending a n
  maps : ∀ k v, f k = some v ↔ ∃ i, i < n ∧ a i = k ∧ b i = v

/-- `f` below the key `m`. -/
def below [LT K] [DecidableLT K] (m : K) (f : K → Option β) : K → Option β :=
  fun k => if k < m then f k else none

/-- `f` from the key `m` on. -/
def fromOn [LT K] [DecidableLT K] (m : K) (f : K → Option β) : K → Option β :=
  fun k => if k < m then none else f k

namespace Represents

variable [LinearOrder K] {a : Nat → K} {b : Nat → β} {n : Nat} {f : K → Option β}

theorem get (h : Represents a b n f) {i : Nat} (hi : i < n) : f (a i) = some (b i) :=
  (h.maps _ _).mpr ⟨i, hi, rfl, rfl⟩

/-- A key is absent when no live slot holds it. -/
theorem eq_none_iff (h : Represents a b n f) (k : K) :
    f k = none ↔ ∀ i, i < n → a i ≠ k := by
  constructor
  · intro hNone i hi hEq
    have hGet := h.get hi
    rw [hEq, hNone] at hGet
    exact absurd hGet (by simp)
  · intro hAll
    cases hk : f k with
    | none => rfl
    | some v =>
        obtain ⟨i, hi, hEq, _⟩ := (h.maps k v).mp hk
        exact absurd hEq (hAll i hi)

/-- Only the live slots matter. -/
theorem congr {a' : Nat → K} {b' : Nat → β} (h : Represents a b n f)
    (ha : ∀ j, j < n → a' j = a j) (hb : ∀ j, j < n → b' j = b j) :
    Represents a' b' n f := by
  refine ⟨h.ascending.congr ha, fun k v => ?_⟩
  rw [h.maps]
  constructor
  · rintro ⟨i, hi, hk, hv⟩
    exact ⟨i, hi, (ha i hi).trans hk, (hb i hi).trans hv⟩
  · rintro ⟨i, hi, hk, hv⟩
    exact ⟨i, hi, (ha i hi).symm.trans hk, (hb i hi).symm.trans hv⟩

/-- Keys inserted at their lower bound stay ascending. -/
theorem ascending_insertSlot {i : Nat} {k : K} (hAsc : Ascending a n)
    (hBound : IsLowerBound a n k i) (hNew : ∀ j, j < n → a j ≠ k) :
    Ascending (insertSlot a i k) (n + 1) := by
  intro p q hpq hq
  have hAbove : ∀ j, i ≤ j → j < n → k < a j := fun j hij hj =>
    lt_of_le_of_ne (hBound.above j hij hj) (fun hEq => hNew j hj hEq.symm)
  rcases Nat.lt_trichotomy q i with hqi | rfl | hqi
  · rw [insertSlot_of_lt a k (by omega), insertSlot_of_lt a k hqi]
    exact hAsc p q hpq (by have := hBound.le; omega)
  · rw [insertSlot_of_lt a k hpq, insertSlot_self]
    exact hBound.below p hpq
  · rw [insertSlot_of_gt a k hqi]
    rcases Nat.lt_trichotomy p i with hpi | rfl | hpi
    · rw [insertSlot_of_lt a k hpi]
      exact lt_trans (hBound.below p hpi) (hAbove (q - 1) (by omega) (by omega))
    · rw [insertSlot_self]
      exact hAbove (q - 1) (by omega) (by omega)
    · rw [insertSlot_of_gt a k hpi]
      exact hAsc (p - 1) (q - 1) (by omega) (by omega)

/-- Inserting an absent key at its lower bound updates the map at that key. -/
theorem insert {i : Nat} {k : K} {v : β} (h : Represents a b n f)
    (hBound : IsLowerBound a n k i) (hNew : f k = none) :
    Represents (insertSlot a i k) (insertSlot b i v) (n + 1)
      (Function.update f k (some v)) := by
  have hNe := (h.eq_none_iff k).mp hNew
  have hle := hBound.le
  refine ⟨ascending_insertSlot h.ascending hBound hNe, fun k' v' => ?_⟩
  constructor
  · intro hGet
    by_cases hk : k' = k
    · subst hk
      rw [Function.update_self] at hGet
      exact ⟨i, by omega, by simp, by simpa using hGet⟩
    · rw [Function.update_of_ne hk] at hGet
      obtain ⟨j, hj, hKey, hVal⟩ := (h.maps k' v').mp hGet
      by_cases hji : j < i
      · exact ⟨j, by omega, by rwa [insertSlot_of_lt a k hji],
          by rwa [insertSlot_of_lt b v hji]⟩
      · refine ⟨j + 1, by omega, ?_, ?_⟩
        · rw [insertSlot_of_gt a k (by omega), Nat.add_sub_cancel]; exact hKey
        · rw [insertSlot_of_gt b v (by omega), Nat.add_sub_cancel]; exact hVal
  · rintro ⟨j, hj, hKey, hVal⟩
    rcases Nat.lt_trichotomy j i with hji | rfl | hji
    · rw [insertSlot_of_lt a k hji] at hKey
      rw [insertSlot_of_lt b v hji] at hVal
      have hkk : k' ≠ k := fun hEq => hNe j (by omega) (hKey.trans hEq)
      rw [Function.update_of_ne hkk]
      exact (h.maps k' v').mpr ⟨j, by omega, hKey, hVal⟩
    · rw [insertSlot_self] at hKey hVal
      subst hKey hVal
      simp
    · rw [insertSlot_of_gt a k hji] at hKey
      rw [insertSlot_of_gt b v hji] at hVal
      have hkk : k' ≠ k := fun hEq => hNe (j - 1) (by omega) (hKey.trans hEq)
      rw [Function.update_of_ne hkk]
      exact (h.maps k' v').mpr ⟨j - 1, by omega, hKey, hVal⟩

/-- Keeping the first `m` slots keeps the keys below the first one dropped. -/
theorem cutBelow {m : Nat} (h : Represents a b n f) (hm : m < n) :
    Represents a b m (below (a m) f) := by
  refine ⟨h.ascending.mono (Nat.le_of_lt hm), fun k v => ?_⟩
  unfold below
  constructor
  · intro hGet
    split at hGet
    · rename_i hlt
      obtain ⟨i, hi, rfl, rfl⟩ := (h.maps k v).mp hGet
      refine ⟨i, ?_, rfl, rfl⟩
      by_contra hge
      exact absurd hlt (not_lt.mpr (h.ascending.le (not_lt.mp hge) hi))
    · exact absurd hGet (by simp)
  · rintro ⟨i, hi, rfl, rfl⟩
    rw [if_pos (h.ascending i m hi hm)]
    exact h.get (by omega)

/-- The slots from `m` on are the keys from the one in slot `m` on. -/
theorem cutFrom {m : Nat} (h : Represents a b n f) (hm : m < n) :
    Represents (fun j => a (m + j)) (fun j => b (m + j)) (n - m)
      (fromOn (a m) f) := by
  refine ⟨fun i j hij hj => h.ascending _ _ (by omega) (by omega), fun k v => ?_⟩
  unfold fromOn
  constructor
  · intro hGet
    split at hGet
    · exact absurd hGet (by simp)
    · rename_i hge
      obtain ⟨i, hi, rfl, rfl⟩ := (h.maps k v).mp hGet
      have hmi : m ≤ i := by
        by_contra hlt
        exact hge (h.ascending i m (by omega) hm)
      exact ⟨i - m, by omega, by rw [Nat.add_sub_cancel' hmi],
        by rw [Nat.add_sub_cancel' hmi]⟩
  · rintro ⟨i, hi, rfl, rfl⟩
    rw [if_neg (not_lt.mpr (h.ascending.le (by omega) (by omega)))]
    exact h.get (by omega)

/-- Overwriting the payload of a live slot updates the map at its key. -/
theorem overwrite {i : Nat} (h : Represents a b n f) (hi : i < n) (v : β) :
    Represents a (Function.update b i v) n (Function.update f (a i) (some v)) := by
  refine ⟨h.ascending, fun k w => ?_⟩
  by_cases hk : k = a i
  · subst hk
    rw [Function.update_self, Option.some.injEq]
    constructor
    · rintro rfl
      exact ⟨i, hi, rfl, Function.update_self ..⟩
    · rintro ⟨j, hj, hKey, hVal⟩
      rwa [h.ascending.inj hj hi hKey, Function.update_self] at hVal
  · rw [Function.update_of_ne hk, h.maps]
    constructor
    · rintro ⟨j, hj, hKey, hVal⟩
      have hji : j ≠ i := fun hEq => hk (by rw [← hKey, hEq])
      exact ⟨j, hj, hKey, by rwa [Function.update_of_ne hji]⟩
    · rintro ⟨j, hj, hKey, hVal⟩
      have hji : j ≠ i := fun hEq => hk (by rw [← hKey, hEq])
      exact ⟨j, hj, hKey, by rwa [Function.update_of_ne hji] at hVal⟩

end Represents

end MxTasking.Verified.Slots
