import MxTasking.Memory.AllocationBlock
import Mathlib.Data.List.GetD

/-!
# What the operations of a block do

The arithmetic of `find_block` and the case splits of `allocate` and `free`, said once.  The
later modules use these statements and do not unfold the operations.

## Main results

* `canHold_iff` — an element passes the comparisons of `find_block` when there is an aligned
  address in it with room for the header in front and for the request behind.
* `allocate_outcome` — every way a call of `allocate` can end.
* `insertFree_both`, `insertFree_right`, `insertFree_left`, `insertFree_none` — the free
  elements after the four ways to merge.
-/

namespace MxTasking.Memory

open MxTasking.Verified.Tiling
open MxTasking.Verified.Slots

/-- The requests the callers of `allocate` make: the alignment is a power of two, and
the size, the alignment and a header together do not overflow. -/
structure Admissible (alignment size : Nat) : Prop where
  power : ∃ n, alignment = 2 ^ n
  fits : size + alignment + sizeofAllocatedHeader < 2 ^ 64

namespace FreeHeader

variable {e f : FreeHeader}

theorem borders_iff (h : e.stop < 2 ^ 64) : borders e f = true ↔ e.stop = f.start := by
  unfold Span.stop at h
  simp [borders, add64_eq h, Span.stop]

theorem borders_eq_false (h : e.stop < 2 ^ 64) (hne : e.stop ≠ f.start) :
    borders e f = false := by
  rw [Bool.eq_false_iff]
  exact fun hEq => hne ((borders_iff h).mp hEq)

/-- Merging with the element behind. -/
theorem merge_right (h : e.stop = f.start) (hf : f.stop < 2 ^ 64) :
    merge e f = ⟨e.start, e.size + f.size⟩ := by
  unfold Span.stop at h hf
  unfold merge
  rw [if_neg (by omega), add64_eq (by omega)]

/-- Merging with the element in front. -/
theorem merge_left (h : f.stop = e.start) (hPos : 0 < f.size) (he : e.stop < 2 ^ 64) :
    merge e f = ⟨f.start, f.size + e.size⟩ := by
  unfold Span.stop at h he
  unfold merge
  rw [if_pos (by omega), add64_eq (by omega), Nat.add_comm]

end FreeHeader

namespace AllocationBlock

/-! ## `find_block` -/

section FindBlock

variable {alignment size : Nat} {e : FreeHeader}

/-- Without an overflow, the part taken from the end of an element. -/
theorem alignedSizeIncludingHeader_of_lt (hPower : ∃ n, alignment = 2 ^ n)
    (hAlignment : alignment < 2 ^ 64) (he : e.stop < 2 ^ 64) (hSize : size ≤ e.size)
    (hFits : size + (e.stop - size) % alignment + sizeofAllocatedHeader < 2 ^ 64) :
    alignedSizeIncludingHeader alignment size e
      = size + (e.stop - size) % alignment + sizeofAllocatedHeader := by
  obtain ⟨n, rfl⟩ := hPower
  have hPos : 0 < 2 ^ n := Nat.two_pow_pos n
  unfold Span.stop at he hFits ⊢
  simp only [alignedSizeIncludingHeader]
  rw [add64_eq he, sub64_eq (by omega) he, sub64_eq hPos (by omega),
    Nat.and_two_pow_sub_one_eq_mod,
    add64_eq (show size + (e.start + e.size - size) % 2 ^ n < 2 ^ 64 by omega), add64_eq hFits]

theorem alignedSizeIncludingHeader_eq (h : Admissible alignment size) (he : e.stop < 2 ^ 64)
    (hSize : size ≤ e.size) :
    alignedSizeIncludingHeader alignment size e
      = size + (e.stop - size) % alignment + sizeofAllocatedHeader := by
  obtain ⟨n, hPower⟩ := h.power
  have hPos : 0 < alignment := by rw [hPower]; exact Nat.two_pow_pos n
  have hMod := Nat.mod_lt (e.stop - size) hPos
  have hFits := h.fits
  exact alignedSizeIncludingHeader_of_lt h.power (by omega) he hSize (by omega)

/-- The comparisons of `find_block`, without machine arithmetic. -/
theorem canHold_eq (h : Admissible alignment size) (he : e.stop < 2 ^ 64) :
    canHold alignment size e = true ↔
      size + (e.stop - size) % alignment + sizeofAllocatedHeader ≤ e.size := by
  have hFits := h.fits
  unfold canHold
  rw [add64_eq (by omega), decide_eq_true_iff]
  constructor
  · rintro ⟨hSize, hAligned⟩
    rwa [alignedSizeIncludingHeader_eq h he (by omega)] at hAligned
  · intro hAligned
    rw [alignedSizeIncludingHeader_eq h he (by omega)]
    exact ⟨by omega, hAligned⟩

/-- The largest aligned address not above `x`. -/
theorem le_sub_mod_of_dvd {alignment p x : Nat} (hp : alignment ∣ p) (hx : p ≤ x) :
    p ≤ x - x % alignment := by
  obtain ⟨k, rfl⟩ := hp
  rcases Nat.eq_zero_or_pos alignment with rfl | hPos
  · simp
  · have hk : k ≤ x / alignment := (Nat.le_div_iff_mul_le hPos).mpr (by rwa [Nat.mul_comm])
    calc alignment * k ≤ alignment * (x / alignment) := Nat.mul_le_mul_left _ hk
      _ = x - x % alignment := by
        have := Nat.div_add_mod x alignment
        omega

/-- There is an aligned address in an element with room for the header in front and for the
request behind exactly if the part from the end is not too large. -/
theorem fits_iff :
    size + (e.stop - size) % alignment + sizeofAllocatedHeader ≤ e.size ↔
      ∃ p, alignment ∣ p ∧ e.start + sizeofAllocatedHeader ≤ p ∧ p + size ≤ e.stop := by
  constructor
  · intro hHold
    refine ⟨e.stop - size - (e.stop - size) % alignment, Nat.dvd_sub_mod _, ?_, ?_⟩
    · unfold Span.stop at *
      omega
    · unfold Span.stop at *
      omega
  · rintro ⟨p, hAligned, hHeader, hRoom⟩
    have hLe := le_sub_mod_of_dvd hAligned (show p ≤ e.stop - size by omega)
    have hMod := Nat.mod_le (e.stop - size) alignment
    unfold Span.stop at *
    omega

/-- An element can hold a request when there is room for it. -/
theorem canHold_iff (h : Admissible alignment size) (he : e.stop < 2 ^ 64) :
    canHold alignment size e = true ↔
      ∃ p, alignment ∣ p ∧ e.start + sizeofAllocatedHeader ≤ p ∧ p + size ≤ e.stop := by
  rw [canHold_eq h he, fits_iff]

/-- Where an allocation of `taken` bytes at the end of an element lies. -/
structure Placement (alignment size : Nat) (e : FreeHeader) (taken : Nat) : Prop where
  size_le : size + sizeofAllocatedHeader ≤ taken
  le : taken ≤ e.size
  aligned : alignment ∣ e.stop - taken + sizeofAllocatedHeader

theorem placement_of_canHold (h : Admissible alignment size) (he : e.stop < 2 ^ 64)
    (hHold : canHold alignment size e = true) :
    Placement alignment size e (alignedSizeIncludingHeader alignment size e) := by
  have hLe := (canHold_eq h he).mp hHold
  have hMod := Nat.mod_le (e.stop - size) alignment
  have hStop : e.size ≤ e.stop := Nat.le_add_left ..
  rw [alignedSizeIncludingHeader_eq h he (by omega)]
  refine ⟨by omega, hLe, ?_⟩
  have hBegin : e.stop - (size + (e.stop - size) % alignment + sizeofAllocatedHeader)
      + sizeofAllocatedHeader = (e.stop - size) - (e.stop - size) % alignment := by
    omega
  rw [hBegin]
  exact Nat.dvd_sub_mod _

/-- The loop returns the first element that can hold the request. -/
theorem findBlockFrom_spec (alignment size : Nat) (elements : List FreeHeader) (start : Nat) :
    (findBlockFrom alignment size elements start = none ∧
      ∀ e ∈ elements, canHold alignment size e = false) ∨
    ∃ before e after, elements = before ++ e :: after ∧
      (∀ x ∈ before, canHold alignment size x = false) ∧ canHold alignment size e = true ∧
      findBlockFrom alignment size elements start
        = some (start + before.length, e, alignedSizeIncludingHeader alignment size e) := by
  induction elements generalizing start with
  | nil => exact .inl ⟨rfl, by simp⟩
  | cons x xs ih =>
      unfold findBlockFrom
      by_cases hHold : canHold alignment size x = true
      · rw [if_pos hHold]
        exact .inr ⟨[], x, xs, rfl, by simp, hHold, rfl⟩
      · rw [if_neg hHold]
        rw [Bool.not_eq_true] at hHold
        rcases ih (start + 1) with ⟨hNone, hAll⟩ | ⟨before, e, after, rfl, hBefore, he, hSome⟩
        · exact .inl ⟨hNone, List.forall_mem_cons.mpr ⟨hHold, hAll⟩⟩
        · refine .inr ⟨x :: before, e, after, rfl, List.forall_mem_cons.mpr ⟨hHold, hBefore⟩,
            he, ?_⟩
          rw [hSome, List.length_cons]
          congr 2
          omega

theorem findBlock_eq {b : AllocationBlock} {before after : List FreeHeader}
    (hElements : b.freeElements = before ++ e :: after)
    (hFirst : ∀ x ∈ before, canHold alignment size x = false)
    (hHold : canHold alignment size e = true) :
    b.findBlock alignment size
      = some (before.length, e, alignedSizeIncludingHeader alignment size e) := by
  have hLoop : ∀ start, findBlockFrom alignment size (before ++ e :: after) start
      = some (start + before.length, e, alignedSizeIncludingHeader alignment size e) := by
    clear hElements
    induction before with
    | nil => simp [findBlockFrom, hHold]
    | cons x xs ih =>
        intro start
        rw [List.forall_mem_cons] at hFirst
        simp only [List.cons_append, findBlockFrom, hFirst.1, Bool.false_eq_true, if_false]
        rw [ih hFirst.2, List.length_cons]
        congr 2
        omega
  rw [findBlock, hElements, hLoop, Nat.zero_add]

end FindBlock

/-! ## `allocate` -/

/-- Every way `allocate(alignment, size)` can end. -/
inductive AllocateOutcome (b : AllocationBlock) (alignment size : Nat) :
    AllocationBlock × Option (Nat × AllocatedHeader) → Prop where
  /-- It returns null, and the block is as before. -/
  | null (h : b.availableSize < size ∨
      ∀ e ∈ b.freeElements, canHold alignment size e = false) :
      AllocateOutcome b alignment size (b, none)
  /-- It takes the end of an element. -/
  | contracted (before after : List FreeHeader) (e : FreeHeader) (taken : Nat)
      (hElements : b.freeElements = before ++ e :: after)
      (hTaken : taken = alignedSizeIncludingHeader alignment size e)
      (hHold : canHold alignment size e = true)
      (hFirst : ∀ x ∈ before, canHold alignment size x = false)
      (hPlace : Placement alignment size e taken) (hRest : 256 ≤ e.size - taken) :
      AllocateOutcome b alignment size
        ({ b with
            freeElements := before ++ ⟨e.start, e.size - taken⟩ :: after
            availableSize := sub64 b.availableSize taken },
          some (e.stop - taken, ⟨taken - sizeofAllocatedHeader, 0, b.numaNodeId, b.id⟩))
  /-- It takes a whole element; the subtrahend is the size of the next one, if there is one. -/
  | swallowed (before after : List FreeHeader) (e : FreeHeader) (taken : Nat)
      (hElements : b.freeElements = before ++ e :: after)
      (hTaken : taken = alignedSizeIncludingHeader alignment size e)
      (hHold : canHold alignment size e = true)
      (hFirst : ∀ x ∈ before, canHold alignment size x = false)
      (hPlace : Placement alignment size e taken) (hRest : e.size - taken < 256) :
      AllocateOutcome b alignment size
        ({ b with
            freeElements := before ++ after
            availableSize := sub64 b.availableSize (after.headD e).size },
          some (e.stop - taken,
            ⟨taken - sizeofAllocatedHeader, e.size - taken, b.numaNodeId, b.id⟩))

theorem allocate_outcome (b : AllocationBlock) {alignment size : Nat}
    (h : Admissible alignment size) (hStop : ∀ e ∈ b.freeElements, e.stop < 2 ^ 64) :
    AllocateOutcome b alignment size (b.allocate alignment size) := by
  unfold allocate
  by_cases hAvailable : b.availableSize < size
  · rw [if_pos hAvailable]
    exact .null (.inl hAvailable)
  rw [if_neg hAvailable, findBlock]
  rcases findBlockFrom_spec alignment size b.freeElements 0 with
    ⟨hNone, hAll⟩ | ⟨before, e, after, hElements, hFirst, hHold, hSome⟩
  · rw [hNone]
    exact .null (.inr hAll)
  · have he : e.stop < 2 ^ 64 := hStop e (by simp [hElements])
    have hPlace := placement_of_canHold h he hHold
    obtain ⟨taken, hTaken⟩ : ∃ taken, taken = alignedSizeIncludingHeader alignment size e :=
      ⟨_, rfl⟩
    rw [← hTaken] at hPlace hSome
    have hSize := hPlace.size_le
    have hLe := hPlace.le
    have hEnd : add64 e.start e.size = e.stop := add64_eq he
    have hSizeStop : e.size ≤ e.stop := Nat.le_add_left ..
    rw [hSome]
    simp only [hEnd, Nat.zero_add, hElements, FreeHeader.contract]
    rw [sub64_eq hLe (by omega), sub64_eq (show taken ≤ e.stop by omega) he,
      sub64_eq (show sizeofAllocatedHeader ≤ taken by omega) (by omega)]
    by_cases hRest : 256 ≤ e.size - taken
    · rw [if_pos hRest]
      have hSet : (before ++ e :: after).set before.length ⟨e.start, e.size - taken⟩
          = before ++ ⟨e.start, e.size - taken⟩ :: after := by simp
      rw [hSet]
      exact .contracted before after e taken hElements hTaken hHold hFirst hPlace hRest
    · rw [if_neg hRest]
      have hErase : (before ++ e :: after).eraseIdx before.length = before ++ after := by
        simp [List.eraseIdx_append]
      have hNext : (before ++ after)[before.length]?.getD e = after.headD e := by
        cases after with
        | nil => simp
        | cons x xs => simp
      rw [hErase, hNext, Nat.mod_eq_of_lt (show e.size - taken < 2 ^ 16 by omega)]
      exact .swallowed before after e taken hElements hTaken hHold hFirst hPlace (by omega)

/-! ## `free` -/

section Insert

variable {L R : List FreeHeader} {l r x : FreeHeader}

/-- The position `std::lower_bound` finds between the elements in front and those behind. -/
theorem lowerBoundIndex_append (hL : (L ++ R).Pairwise (fun e f => e.start < f.start))
    (hBelow : ∀ l ∈ L, l.start < x.start) (hAbove : ∀ r ∈ R, x.start < r.start) :
    lowerBoundIndex (L ++ R) x = L.length := by
  have hAsc : Ascending (fun i => ((L ++ R).getD i x).start) (L ++ R).length := by
    intro i j hij hj
    have hi : i < (L ++ R).length := by omega
    show ((L ++ R).getD i x).start < ((L ++ R).getD j x).start
    rw [List.getD_eq_getElem _ _ hi, List.getD_eq_getElem _ _ hj]
    exact List.pairwise_iff_getElem.mp hL i j hi hj hij
  have hBound := lowerBound_isLowerBound hAsc x.start
  obtain ⟨index, hIndex⟩ : ∃ index, index = lowerBoundIndex (L ++ R) x := ⟨_, rfl⟩
  rw [← hIndex]
  change IsLowerBound _ _ _ (lowerBoundIndex (L ++ R) x) at hBound
  rw [← hIndex] at hBound
  obtain ⟨hLe, hLeft, hRight⟩ := hBound
  rcases Nat.lt_trichotomy index L.length with hlt | hEq | hgt
  · have hIn := hBelow (L[index]) (List.getElem_mem hlt)
    have := hRight index (le_refl _) (by simp; omega)
    simp [List.getD_eq_getElem?_getD, List.getElem?_append_left, hlt] at this
    omega
  · exact hEq
  · have hR : L.length < (L ++ R).length := by omega
    cases R with
    | nil => simp at hR
    | cons r R =>
        have := hLeft L.length hgt
        have hr := hAbove r List.mem_cons_self
        simp [List.getD_eq_getElem?_getD] at this
        omega

theorem insertIdx_length_append {α : Type*} (xs ys : List α) (a : α) :
    (xs ++ ys).insertIdx xs.length a = xs ++ a :: ys := by
  induction xs with
  | nil => rfl
  | cons x xs ih => simp [ih]

theorem mergeLeft_append (h : FreeHeader.borders l x = true) :
    mergeLeft (L ++ l :: x :: R) (L.length + 1) x = L ++ FreeHeader.merge l x :: R := by
  simp [mergeLeft, h, List.eraseIdx_append]

theorem mergeLeft_of_not_borders (h : ∀ l ∈ L, FreeHeader.borders l x = false) :
    mergeLeft (L ++ x :: R) L.length x = L ++ x :: R := by
  rcases List.eq_nil_or_concat L with rfl | ⟨L, l, rfl⟩
  · simp [mergeLeft]
  · have := h l (by simp)
    simp [mergeLeft, this]

theorem insertLeft_append (h : FreeHeader.borders l x = true) :
    insertLeft (L ++ l :: R) (L.length + 1) x = L ++ FreeHeader.merge l x :: R := by
  simp [insertLeft, h]

theorem insertLeft_of_not_borders (h : ∀ l ∈ L, FreeHeader.borders l x = false) :
    insertLeft (L ++ R) L.length x = L ++ x :: R := by
  rw [← insertIdx_length_append]
  rcases List.eq_nil_or_concat L with rfl | ⟨L, l, rfl⟩
  · simp [insertLeft]
  · have := h l (by simp)
    simp [insertLeft, this]

/-- Where the element does not border the one behind, `free` only looks to the left. -/
theorem insertFree_of_not_borders (hIndex : lowerBoundIndex (L ++ R) x = L.length)
    (hRight : ∀ r ∈ R, FreeHeader.borders x r = false) :
    insertFree (L ++ R) x = insertLeft (L ++ R) L.length x := by
  unfold insertFree
  by_cases hEmpty : L ++ R = []
  · obtain ⟨rfl, rfl⟩ := List.append_eq_nil_iff.mp hEmpty
    rfl
  rw [if_neg (by simpa using hEmpty), hIndex]
  cases R with
  | nil => simp
  | cons r R => simp [hRight r List.mem_cons_self]

/-- Where it does, the two are merged first. -/
theorem insertFree_of_borders (hIndex : lowerBoundIndex (L ++ r :: R) x = L.length)
    (hRight : FreeHeader.borders x r = true) :
    insertFree (L ++ r :: R) x
      = mergeLeft (L ++ FreeHeader.merge r x :: R) L.length (FreeHeader.merge r x) := by
  unfold insertFree
  rw [if_neg (by simp), hIndex]
  simp [hRight]

end Insert

end AllocationBlock

end MxTasking.Memory
