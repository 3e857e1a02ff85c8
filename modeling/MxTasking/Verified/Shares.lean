import Mathlib.Data.List.Nodup
import Mathlib.Data.List.Perm.Subperm
import Mathlib.Data.List.Range
import Mathlib.Logic.Function.Basic

/-!
# Shares of a range

The numbers below `n` are shared among parties: each party has a list of some of them, no number
is in two lists or twice in one, and every number is in some list.  A party takes the next
numbers of the range, and then the range is larger; or it reorders what it has.

## Main results

* `Shares.take` — a party takes the numbers behind the range.
* `Shares.length_le` — no party has more than there is.
* `Shares.existsUnique` — every number has one owner.
-/

namespace MxTasking.Verified

variable {ι : Type*} {own : ι → List Nat} {n : Nat}

/-- The lists share the numbers below `n`. -/
structure Shares (own : ι → List Nat) (n : Nat) : Prop where
  nodup : ∀ i, (own i).Nodup
  disjoint : ∀ i j, i ≠ j → (own i).Disjoint (own j)
  covers : ∀ x, (∃ i, x ∈ own i) ↔ x < n

namespace Shares

theorem nil : Shares (fun _ : ι => []) 0 :=
  ⟨fun _ => List.nodup_nil, fun _ _ _ => by simp, fun x => by simp⟩

theorem lt (h : Shares own n) {i : ι} {x : Nat} (hx : x ∈ own i) : x < n :=
  (h.covers x).mp ⟨i, hx⟩

theorem length_le (h : Shares own n) (i : ι) : (own i).length ≤ n := by
  have hSubset : own i ⊆ List.range n := fun x hx => List.mem_range.mpr (h.lt hx)
  have hLength := ((h.nodup i).subperm hSubset).length_le
  rwa [List.length_range] at hLength

theorem existsUnique (h : Shares own n) {x : Nat} (hx : x < n) : ∃! i, x ∈ own i := by
  obtain ⟨i, hi⟩ := (h.covers x).mpr hx
  refine ⟨i, hi, fun j hj => ?_⟩
  by_contra hne
  exact h.disjoint j i hne hj hi

/-- The lists of a party may be written in another way. -/
theorem congr {own' : ι → List Nat} (h : Shares own n) (hEq : ∀ i, own' i = own i) :
    Shares own' n := by
  rwa [show own' = own from funext hEq]

variable [DecidableEq ι]

/-- A party takes the `k` numbers behind the range. -/
theorem take (h : Shares own n) (i : ι) (k : Nat) :
    Shares (Function.update own i (own i ++ List.range' n k)) (n + k) := by
  have hMem : ∀ j x, x ∈ Function.update own i (own i ++ List.range' n k) j ↔
      x ∈ own j ∨ (j = i ∧ n ≤ x ∧ x < n + k) := by
    intro j x
    by_cases hj : j = i
    · subst hj
      rw [Function.update_self, List.mem_append, List.mem_range'_1]
      simp
    · rw [Function.update_of_ne hj]
      simp [hj]
  refine ⟨fun j => ?_, fun j j' hne x hx hx' => ?_, fun x => ?_⟩
  · by_cases hj : j = i
    · subst hj
      rw [Function.update_self]
      refine (h.nodup j).append List.nodup_range' fun x hx hx' => ?_
      have := h.lt hx
      rw [List.mem_range'_1] at hx'
      omega
    · rw [Function.update_of_ne hj]
      exact h.nodup j
  · rw [hMem] at hx hx'
    rcases hx with hx | ⟨rfl, hx, _⟩
    · rcases hx' with hx' | ⟨rfl, hx', _⟩
      · exact h.disjoint j j' hne hx hx'
      · exact absurd (h.lt hx) (by omega)
    · rcases hx' with hx' | ⟨rfl, _⟩
      · exact absurd (h.lt hx') (by omega)
      · exact hne rfl
  · simp only [hMem, exists_or, exists_eq_left, h.covers x]
    omega

end Shares

end MxTasking.Verified
