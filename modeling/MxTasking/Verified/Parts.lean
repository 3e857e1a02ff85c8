import Mathlib.Data.Multiset.Filter
import MxTasking.Verified.Counting

/-!
# A list in parts

A list is cut into chunks, or its elements are handed out to `n` parties.  As multisets, the
parts add up to the list again, and what is done with every part adds up to what is done with the
list.

## Main results

* `flatMap_chunks` — chunks of the same size and a last one are all positions.
* `eq_of_nodup_filterMap` — the place of an element that was found.
* `sum_routed` — elements that are routed to parties are not lost.
* `sum_filterMap` — a `filterMap` on the parts.
-/

namespace MxTasking.Verified

variable {α β : Type*}

/-- Chunks of `p` positions, one behind the other. -/
theorem flatMap_range' (p m : Nat) :
    (List.range m).flatMap (fun i => List.range' (i * p) p) = List.range (m * p) := by
  induction m with
  | zero => simp
  | succ m ih =>
      rw [List.range_succ, List.flatMap_append, ih, Nat.succ_mul, List.range_eq_range',
        List.range_eq_range', List.flatMap_singleton, ← List.range'_append_1, Nat.zero_add]

/-- Chunks of `p` positions, and a last one with the rest. -/
theorem flatMap_chunks {p m n : Nat} (h : m * p ≤ n) (count : Nat → Nat)
    (hFirst : ∀ i < m, count i = p) (hLast : count m = n - m * p) :
    (List.range (m + 1)).flatMap (fun i => List.range' (i * p) (count i)) = List.range n := by
  have hChunks : ∀ i ∈ List.range m, List.range' (i * p) (count i) = List.range' (i * p) p := by
    intro i hi
    rw [hFirst i (List.mem_range.mp hi)]
  rw [List.range_succ, List.flatMap_append, List.flatMap_congr hChunks, flatMap_range',
    List.flatMap_singleton, hLast, List.range_eq_range', List.range_eq_range']
  conv_rhs => rw [show n = m * p + (n - m * p) by omega]
  rw [← List.range'_append_1, Nat.zero_add]

/-- The elements by their position. -/
theorem filterMap_range_getElem? (l : List α) (f : Nat → α → β) :
    (List.range l.length).filterMap (fun i => l[i]?.map (f i)) = l.mapIdx f := by
  induction l using List.reverseRecOn with
  | nil => rfl
  | append_singleton l a ih =>
      have hInit : (List.range l.length).filterMap (fun i => (l ++ [a])[i]?.map (f i)) =
          (List.range l.length).filterMap (fun i => l[i]?.map (f i)) := by
        refine List.filterMap_congr fun i hi => ?_
        rw [List.getElem?_append_left (List.mem_range.mp hi)]
      rw [List.length_append, List.length_singleton, List.range_succ, List.filterMap_append, hInit,
        ih, List.mapIdx_append]
      simp

/-- What a `filterMap` without duplicates has found, it has found at one place. -/
theorem eq_of_nodup_filterMap {f : α → Option β} {l : List α} (h : (l.filterMap f).Nodup)
    {i j : Nat} {a b : α} {x : β} (ha : l[i]? = some a) (hb : l[j]? = some b) (hfa : f a = some x)
    (hfb : f b = some x) : i = j := by
  obtain ⟨hi, rfl⟩ := List.getElem?_eq_some_iff.mp ha
  obtain ⟨hj, rfl⟩ := List.getElem?_eq_some_iff.mp hb
  have hPairs := List.pairwise_iff_getElem.mp (List.pairwise_filterMap.mp h)
  rcases Nat.lt_trichotomy i j with hLess | hEq | hLess
  · exact absurd rfl (hPairs i j hi hj hLess x hfa x hfb)
  · exact hEq
  · exact absurd rfl (hPairs j i hj hi hLess x hfb x hfa)

theorem sum_coe_flatMap (n : Nat) (g : Nat → List α) :
    ∑ i ∈ Finset.range n, (g i : Multiset α) = ((List.range n).flatMap g : List α) := by
  induction n with
  | zero => rfl
  | succ n ih =>
      rw [Finset.sum_range_succ, ih, List.range_succ, List.flatMap_append, List.flatMap_singleton,
        Multiset.coe_add]

/-- The elements that `f` routes to the parties are all elements. -/
theorem sum_routed {n : Nat} (f : α → Nat) (l : List α) (hf : ∀ a ∈ l, f a < n) :
    ∑ t ∈ Finset.range n, (l.filter (fun a => f a = t) : Multiset α) = l := by
  induction l with
  | nil => exact Finset.sum_eq_zero fun t _ => rfl
  | cons a l ih =>
      have hTail := ih fun b hb => hf b (List.mem_cons_of_mem a hb)
      have hSum := sum_change (S := Finset.range n) (i := f a)
        (f := fun t => (l.filter (fun a => f a = t) : Multiset α))
        (g := fun t => ((a :: l).filter (fun a => f a = t) : Multiset α))
        (a := 0) (b := {a}) (Finset.mem_range.mpr (hf a List.mem_cons_self)) ?_ ?_
      · rw [add_zero, hTail] at hSum
        rw [hSum, Multiset.add_comm, Multiset.singleton_add, Multiset.cons_coe]
      · rw [add_zero, Multiset.add_comm, Multiset.singleton_add, Multiset.cons_coe]
        simp
      · intro t _ hne
        simp [Ne.symm hne]

theorem sum_filterMap {ι : Type*} (S : Finset ι) (g : ι → Multiset α) (f : α → Option β) :
    ∑ i ∈ S, (g i).filterMap f = (∑ i ∈ S, g i).filterMap f := by
  classical
  induction S using Finset.induction_on with
  | empty => rfl
  | insert i S hi ih =>
      rw [Finset.sum_insert hi, Finset.sum_insert hi, Multiset.filterMap_add, ih]

end MxTasking.Verified
