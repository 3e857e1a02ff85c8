import Mathlib.Algebra.BigOperators.Group.Finset.Basic
import Mathlib.Data.Finset.Card
import Mathlib.Data.Fintype.BigOperators
import Mathlib.Algebra.Order.BigOperators.Group.Finset
import Mathlib.Algebra.Order.Group.Nat
import Mathlib.Data.Finset.Range
import Mathlib.Data.Nat.Count
import Mathlib.Tactic.Ring

/-!
# How many of `n`

The number of indices below `n` with a property, which is what a counter of outstanding events
stands for: it starts at `n`, one event less makes it one smaller, and at 0 nothing
is outstanding.  In the same way a sum over the parties changes by what one party changes, and so
does the number of parties that are at certain places.  Levels that shrink by a factor are few.
-/

namespace MxTasking.Verified

open Classical

/-- The number of `i < n` with `P i`. -/
noncomputable def howMany (n : Nat) (P : Nat → Prop) : Nat := ((Finset.range n).filter P).card

variable {n i : Nat} {P Q : Nat → Prop}

theorem howMany_le : howMany n P ≤ n :=
  (Finset.card_filter_le _ _).trans (Finset.card_range n).le

theorem howMany_all (h : ∀ i < n, P i) : howMany n P = n := by
  rw [howMany, Finset.filter_true_of_mem fun i hi => h i (Finset.mem_range.mp hi),
    Finset.card_range]

theorem howMany_congr (h : ∀ i < n, P i ↔ Q i) : howMany n P = howMany n Q :=
  congrArg Finset.card (Finset.filter_congr fun i hi => h i (Finset.mem_range.mp hi))

theorem howMany_eq_zero : howMany n P = 0 ↔ ∀ i < n, ¬ P i := by
  rw [howMany, Finset.card_eq_zero, Finset.filter_eq_empty_iff]
  exact forall_congr' fun i => by rw [Finset.mem_range]

/-- One fewer. -/
theorem howMany_erase (hi : i < n) (hP : P i) (hQ : ¬ Q i)
    (hSame : ∀ j < n, j ≠ i → (Q j ↔ P j)) :
    howMany n P ≠ 0 ∧ howMany n Q = howMany n P - 1 := by
  have hMem : i ∈ (Finset.range n).filter P := Finset.mem_filter.mpr ⟨Finset.mem_range.mpr hi, hP⟩
  have hErase : (Finset.range n).filter Q = ((Finset.range n).filter P).erase i := by
    ext j
    simp only [Finset.mem_filter, Finset.mem_erase, Finset.mem_range]
    constructor
    · rintro ⟨hj, hQj⟩
      have hne : j ≠ i := by
        rintro rfl
        exact hQ hQj
      exact ⟨hne, hj, (hSame j hj hne).mp hQj⟩
    · rintro ⟨hne, hj, hPj⟩
      exact ⟨hj, (hSame j hj hne).mpr hPj⟩
  refine ⟨fun hZero => howMany_eq_zero.mp hZero i hi hP, ?_⟩
  rw [howMany, hErase, Finset.card_erase_of_mem hMem, howMany]

/-- The number of indices with a decidable property depends on the indices counted only. -/
theorem count_congr [DecidablePred P] [DecidablePred Q] (h : ∀ i < n, P i ↔ Q i) :
    Nat.count P n = Nat.count Q n := by
  rw [Nat.count_eq_card_filter_range, Nat.count_eq_card_filter_range]
  exact congrArg Finset.card (Finset.filter_congr fun i hi => h i (Finset.mem_range.mp hi))

/-- One index changes. -/
theorem count_change [DecidablePred P] [DecidablePred Q] (hi : i < n)
    (hSame : ∀ j < n, j ≠ i → (Q j ↔ P j)) :
    Nat.count Q n + (if P i then 1 else 0) = Nat.count P n + if Q i then 1 else 0 := by
  induction n with
  | zero => exact absurd hi (Nat.not_lt_zero i)
  | succ n ih =>
      rw [Nat.count_succ, Nat.count_succ]
      by_cases hLast : i = n
      · subst hLast
        rw [count_congr fun j hj => hSame j (by omega) (by omega)]
        omega
      · have ihStep := ih (by omega) fun j hj hne => hSame j (by omega) hne
        have hEq : (if Q n then 1 else 0) = if P n then 1 else 0 :=
          if_congr (hSame n (by omega) (Ne.symm hLast)) rfl rfl
        omega

/-- One summand changes, and the sum changes by as much. -/
theorem sum_change {ι M : Type*} [AddCommMonoid M] {S : Finset ι} {f g : ι → M} {i : ι} {a b : M}
    (hi : i ∈ S) (hSelf : g i + a = f i + b) (hSame : ∀ j ∈ S, j ≠ i → g j = f j) :
    ∑ j ∈ S, g j + a = ∑ j ∈ S, f j + b := by
  have hRest : ∑ j ∈ S.erase i, g j = ∑ j ∈ S.erase i, f j :=
    Finset.sum_congr rfl fun j hj =>
      hSame j (Finset.mem_of_mem_erase hj) (Finset.ne_of_mem_erase hj)
  rw [← Finset.add_sum_erase S g hi, ← Finset.add_sum_erase S f hi, hRest, add_right_comm, hSelf,
    add_right_comm]

/-! ## Parties at their places -/

section Parties

variable {ι α : Type*} [Fintype ι] {counts : α → Bool} {places : ι → α} {party : ι}

/-- The number of parties that are at a place that counts. -/
def number (counts : α → Bool) (places : ι → α) : Nat := ∑ party, (counts (places party)).toNat

theorem number_le : number counts places ≤ Fintype.card ι := by
  have hSum : number counts places ≤ ∑ _party : ι, 1 :=
    Finset.sum_le_sum fun party _ => Bool.toNat_le (counts (places party))
  rwa [← Finset.card_eq_sum_ones, Finset.card_univ] at hSum

theorem number_lt (h : counts (places party) = false) :
    number counts places < Fintype.card ι := by
  have hSum : number counts places < ∑ _party : ι, 1 := by
    refine Finset.sum_lt_sum (fun other _ => Bool.toNat_le (counts (places other)))
      ⟨party, Finset.mem_univ party, ?_⟩
    rw [h]
    exact Nat.zero_lt_one
  rwa [← Finset.card_eq_sum_ones, Finset.card_univ] at hSum

theorem number_eq_zero :
    number counts places = 0 ↔ ∀ party, counts (places party) = false := by
  rw [number, Finset.sum_eq_zero_iff]
  simp

/-- One party is elsewhere. -/
theorem number_update [DecidableEq ι] (place : α) :
    number counts (Function.update places party place) + (counts (places party)).toNat =
      number counts places + (counts place).toNat := by
  refine sum_change (Finset.mem_univ party) ?_ fun other _ hne => ?_
  · rw [Function.update_self]
    exact Nat.add_comm _ _
  · rw [Function.update_of_ne hne]

end Parties

/-! ## Levels -/

/-- Where every level is `m` times as large as the one above it. -/
theorem pow_mul_le_of_levels {f : Nat → Nat} {m top : Nat}
    (h : ∀ l < top, f (l + 1) * m ≤ f l) : f top * m ^ top ≤ f 0 := by
  induction top with
  | zero => simp
  | succ top ih =>
      calc f (top + 1) * m ^ (top + 1) = f (top + 1) * m * m ^ top := by ring
        _ ≤ f top * m ^ top := Nat.mul_le_mul_right _ (h top (Nat.lt_succ_self top))
        _ ≤ f 0 := ih fun l hl => h l (by omega)

end MxTasking.Verified
