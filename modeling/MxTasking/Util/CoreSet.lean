import MxTasking.Memory.ProcessorHeap
import MxTasking.Tasking.Channel

/-!
# Core sets

`core_set.h` and `core_set::build`, for every topology: any number of cores and any assignment
of cores to NUMA nodes.  The identifiers are kept in an array of `max_cores()` entries, the nodes in
a bit vector.

The number of cores is limited by `max_cores()`, the identifiers are not.  Sorted by node,
a core with a large identifier may come first, and the tables of the runtime that are indexed by
core, such as `_core_heaps` of the allocator, have `max_cores()` entries.

## Main results

* `identifiers_build`, `nodup_build` — what `build` has put into the set.
* `mem_take_iff` — what comes first in a sorted list.
* `build_valid_iff` — when `build` yields a valid core set.
-/

namespace MxTasking.Util

open MxTasking.Memory.Fixed.ProcessorHeap (maxCores)
open MxTasking.Tasking (maxNumaNodes)

/-! ## The program -/

/-- `core_set::Order`. -/
inductive Order where
  | ascending
  | numaAware
  deriving DecidableEq, Repr

/-- `core_set`. -/
structure CoreSet where
  coreIdentifier : Nat → Nat
  size : Nat
  numaNodes : Nat → Bool

namespace CoreSet

/-- `core_set()`. -/
def empty : CoreSet := ⟨fun _ => 0, 0, fun _ => false⟩

/-- `emplace_back(core_identifier)`; `nodeId` is `topology::node_id`. -/
def emplaceBack (nodeId : Nat → Nat) (s : CoreSet) (coreIdentifier : Nat) : CoreSet where
  coreIdentifier := Function.update s.coreIdentifier s.size coreIdentifier
  size := (s.size + 1) % 2 ^ 16
  numaNodes := Function.update s.numaNodes (nodeId coreIdentifier) true

/-- The comparison `std::sort` is called with. -/
def less (nodeId : Nat → Nat) (left right : Nat) : Bool :=
  if nodeId left = nodeId right then left < right else nodeId left < nodeId right

/-- `cores_to_sort`, sorted. -/
def sortedCores (countCores : Nat) (nodeId : Nat → Nat) : List Nat :=
  (List.range countCores).mergeSort fun left right => !less nodeId right left

/-- The number of cores `build` adds. -/
def countOf (countCores cores : Nat) : Nat := min cores (min maxCores countCores)

/-- `core_set::build(cores, order)`; there are `countCores` cores. -/
def build (countCores : Nat) (nodeId : Nat → Nat) (cores : Nat) : Order → CoreSet
  | .ascending => (List.range (countOf countCores cores)).foldl (emplaceBack nodeId) empty
  | .numaAware => (List.range (countOf countCores cores)).foldl
      (fun s i => emplaceBack nodeId s ((sortedCores countCores nodeId).getD i 0)) empty

/-- `operator!=`. -/
def notEqual (s other : CoreSet) : Bool :=
  (List.range maxCores).map s.coreIdentifier != (List.range maxCores).map other.coreIdentifier ||
    s.size != other.size ||
    (List.range maxNumaNodes).map s.numaNodes != (List.range maxNumaNodes).map other.numaNodes

/-- `has_core_of_numa_node(numa_node_id)`; `std::bitset::test` throws outside. -/
def hasCoreOfNumaNode (s : CoreSet) (numaNodeId : Nat) : Option Bool :=
  if numaNodeId < maxNumaNodes then some (s.numaNodes numaNodeId) else none

/-- From `begin()` to `end()`. -/
def identifiers (s : CoreSet) : List Nat := (List.range s.size).map s.coreIdentifier

/-! ## Valid core sets -/

/-- What `build` promises of the set it builds. -/
structure Valid (countCores : Nat) (nodeId : Nat → Nat) (cores : Nat) (order : Order)
    (s : CoreSet) : Prop where
  size : s.size = min cores (min maxCores countCores)
  distinct : (identifiers s).Nodup
  available : ∀ core ∈ identifiers s, core < countCores
  /-- The tables of the runtime have an entry for the core. -/
  indexed : ∀ core ∈ identifiers s, core < maxCores
  /-- The first ones by node and identifier, in this order. -/
  sorted : order = .numaAware →
    (identifiers s).Pairwise (fun left right => less nodeId left right) ∧
    ∀ core ∈ identifiers s, ∀ other < countCores, other ∉ identifiers s → less nodeId core other
  nodes : ∀ node < maxNumaNodes, hasCoreOfNumaNode s node = some true ↔
    ∃ core ∈ identifiers s, nodeId core = node

/-- The number of cores that come before a core, by node and identifier. -/
def before (countCores : Nat) (nodeId : Nat → Nat) (core : Nat) : Nat :=
  (List.range countCores).countP fun other => less nodeId other core

/-! ## Comparing core sets -/

section Comparing

variable {s other : CoreSet}

theorem notEqual_self (s : CoreSet) : s.notEqual s = false := by
  simp [notEqual]

theorem size_eq_of_notEqual (h : s.notEqual other = false) : s.size = other.size := by
  simp only [notEqual, Bool.or_eq_false_iff, bne_eq_false_iff_eq] at h
  exact h.1.2

theorem notEqual_congr (h : s.notEqual other = false) (third : CoreSet) :
    s.notEqual third = other.notEqual third := by
  simp only [notEqual, Bool.or_eq_false_iff, bne_eq_false_iff_eq] at h
  obtain ⟨⟨hIdentifier, hSize⟩, hNodes⟩ := h
  rw [notEqual, notEqual, hIdentifier, hSize, hNodes]

end Comparing

/-! ## Adding cores -/

/-- The cores `xs` have been added, in this order. -/
structure Has (nodeId : Nat → Nat) (s : CoreSet) (xs : List Nat) : Prop where
  size : s.size = xs.length
  identifier : ∀ i, i < xs.length → xs[i]? = some (s.coreIdentifier i)
  node : ∀ node, s.numaNodes node = true ↔ ∃ core ∈ xs, nodeId core = node

section Adding

variable {nodeId : Nat → Nat} {s : CoreSet} {xs : List Nat}

theorem Has.empty (nodeId : Nat → Nat) : Has nodeId empty [] :=
  ⟨rfl, nofun, by simp [CoreSet.empty]⟩

theorem Has.emplaceBack (h : Has nodeId s xs) (hSize : xs.length < maxCores) (core : Nat) :
    Has nodeId (emplaceBack nodeId s core) (xs ++ [core]) := by
  have hMax : xs.length + 1 < 2 ^ 16 := Nat.lt_of_le_of_lt hSize (by decide)
  refine ⟨?_, fun i hi => ?_, fun node => ?_⟩
  · show (s.size + 1) % 2 ^ 16 = _
    rw [h.size, Nat.mod_eq_of_lt hMax, List.length_append, List.length_singleton]
  · show _ = some (Function.update s.coreIdentifier s.size core i)
    rw [h.size]
    by_cases hLast : i = xs.length
    · rw [hLast, Function.update_self, List.getElem?_concat_length]
    · rw [List.length_append, List.length_singleton] at hi
      have hlt : i < xs.length := by omega
      rw [Function.update_of_ne hLast, List.getElem?_append_left hlt, h.identifier i hlt]
  · show Function.update s.numaNodes (nodeId core) true node = true ↔ _
    by_cases hNode : node = nodeId core
    · subst hNode
      rw [Function.update_self]
      exact iff_of_true rfl ⟨core, List.mem_append_right _ (List.mem_singleton_self _), rfl⟩
    · rw [Function.update_of_ne hNode, h.node]
      constructor
      · rintro ⟨other, hMem, hEq⟩
        exact ⟨other, List.mem_append_left _ hMem, hEq⟩
      · rintro ⟨other, hMem, hEq⟩
        rcases List.mem_append.mp hMem with hOld | hNew
        · exact ⟨other, hOld, hEq⟩
        · rw [List.mem_singleton.mp hNew] at hEq
          exact absurd hEq.symm hNode

theorem Has.identifiers_eq (h : Has nodeId s xs) : identifiers s = xs := by
  refine List.ext_getElem? fun i => ?_
  rw [identifiers, List.getElem?_map, h.size]
  by_cases hi : i < xs.length
  · rw [List.getElem?_range hi, h.identifier i hi]
    rfl
  · rw [List.getElem?_eq_none (by rw [List.length_range]; omega),
      List.getElem?_eq_none (by omega)]
    rfl

/-- The loop of `build`. -/
theorem has_loop (nodeId f : Nat → Nat) {n : Nat} (hn : n ≤ maxCores) :
    Has nodeId ((List.range n).foldl (fun s i => CoreSet.emplaceBack nodeId s (f i)) CoreSet.empty)
      ((List.range n).map f) := by
  induction n with
  | zero => exact Has.empty nodeId
  | succ n ih =>
      rw [List.range_succ, List.foldl_append, List.map_append]
      refine (ih (Nat.le_of_succ_le hn)).emplaceBack ?_ (f n)
      rw [List.length_map, List.length_range]
      exact hn

end Adding

/-! ## The order -/

/-- What comes first in a list that is sorted strictly. -/
theorem mem_take_iff {α : Type*} {r : α → α → Bool} {xs : List α} {a : α} {n : Nat}
    (hSorted : xs.Pairwise fun x y => r x y) (hAsymm : ∀ x y, r x y = true → r y x = false)
    (ha : a ∈ xs) : a ∈ xs.take n ↔ xs.countP (fun x => r x a) < n := by
  have hIrrefl : r a a = false := by
    by_contra hSelf
    have hTrue : r a a = true := by simpa using hSelf
    exact hSelf (hAsymm a a hTrue)
  obtain ⟨front, back, rfl⟩ := List.append_of_mem ha
  obtain ⟨-, hBack, hCross⟩ := List.pairwise_append.mp hSorted
  have hFront : front.countP (fun x => r x a) = front.length :=
    List.countP_eq_length.mpr fun x hx => hCross x hx a List.mem_cons_self
  have hRest : back.countP (fun x => r x a) = 0 := by
    refine List.countP_eq_zero.mpr fun x hx => ?_
    rw [hAsymm a x ((List.pairwise_cons.mp hBack).1 x hx)]
    exact Bool.false_ne_true
  have hCount : (front ++ a :: back).countP (fun x => r x a) = front.length := by
    rw [List.countP_append, hFront, List.countP_cons_of_neg (by rw [hIrrefl]; exact nofun), hRest,
      Nat.add_zero]
  have hNotFront : a ∉ front := by
    intro hMem
    have hSelf := hCross a hMem a List.mem_cons_self
    rw [hIrrefl] at hSelf
    cases hSelf
  rw [hCount]
  constructor
  · intro hMem
    by_contra hge
    rw [List.take_append_of_le_length (not_lt.mp hge)] at hMem
    exact hNotFront (List.mem_of_mem_take hMem)
  · intro hlt
    rw [List.take_append, List.mem_append]
    obtain ⟨k, hk⟩ := Nat.exists_eq_add_of_lt hlt
    refine Or.inr ?_
    rw [show n - front.length = k + 1 by omega, List.take_succ_cons]
    exact List.mem_cons_self

section Order

variable {countCores : Nat} {nodeId : Nat → Nat}

theorem less_asymm (left right : Nat) (h : less nodeId left right = true) :
    less nodeId right left = false := by
  unfold less at *
  by_cases hEq : nodeId left = nodeId right
  · rw [if_pos hEq, decide_eq_true_eq] at h
    rw [if_pos hEq.symm, decide_eq_false_iff_not]
    omega
  · rw [if_neg hEq, decide_eq_true_eq] at h
    rw [if_neg (Ne.symm hEq), decide_eq_false_iff_not]
    omega

theorem less_total {left right : Nat} (hne : left ≠ right)
    (h : less nodeId right left = false) : less nodeId left right = true := by
  unfold less at *
  by_cases hEq : nodeId left = nodeId right
  · rw [if_pos hEq.symm, decide_eq_false_iff_not] at h
    rw [if_pos hEq, decide_eq_true_eq]
    omega
  · rw [if_neg (Ne.symm hEq), decide_eq_false_iff_not] at h
    rw [if_neg hEq, decide_eq_true_eq]
    omega

theorem less_trans {a b c : Nat} (hab : less nodeId b a = false) (hbc : less nodeId c b = false) :
    less nodeId c a = false := by
  unfold less at *
  grind

theorem sortedCores_perm : (sortedCores countCores nodeId).Perm (List.range countCores) :=
  List.mergeSort_perm ..

theorem sortedCores_sorted (countCores : Nat) (nodeId : Nat → Nat) :
    (sortedCores countCores nodeId).Pairwise fun left right => less nodeId left right := by
  have hSorted : (sortedCores countCores nodeId).Pairwise fun left right =>
      (!less nodeId right left) = true := by
    refine List.pairwise_mergeSort (fun a b c hab hbc => ?_) (fun a b => ?_) _
    · rw [Bool.not_eq_true'] at *
      exact less_trans hab hbc
    · by_cases hEq : less nodeId b a = true
      · rw [less_asymm b a hEq]
        exact Bool.or_true _
      · rw [Bool.not_eq_true] at hEq
        rw [hEq]
        rfl
  have hNodup : (sortedCores countCores nodeId).Nodup :=
    sortedCores_perm.nodup_iff.mpr List.nodup_range
  refine (hSorted.and hNodup).imp fun {a b} hBoth => ?_
  exact less_total hBoth.2 (by simpa using hBoth.1)

/-- A core is among the first ones if few come before it. -/
theorem mem_first_iff {core n : Nat} (hCore : core < countCores) :
    core ∈ (sortedCores countCores nodeId).take n ↔ before countCores nodeId core < n := by
  have hMem : core ∈ sortedCores countCores nodeId :=
    sortedCores_perm.mem_iff.mpr (List.mem_range.mpr hCore)
  rw [mem_take_iff (sortedCores_sorted ..) less_asymm hMem, before, sortedCores_perm.countP_eq]

end Order

/-! ## What is built -/

section Build

variable (countCores : Nat) (nodeId : Nat → Nat) (cores : Nat)

theorem countOf_le : countOf countCores cores ≤ maxCores :=
  Nat.le_trans (Nat.min_le_right ..) (Nat.min_le_left ..)

/-- The cores in the order in which `build` adds them. -/
def listed : Order → List Nat
  | .ascending => List.range (countOf countCores cores)
  | .numaAware => (sortedCores countCores nodeId).take (countOf countCores cores)

theorem has_build (order : Order) :
    Has nodeId (build countCores nodeId cores order) (listed countCores nodeId cores order) := by
  cases order with
  | ascending =>
      have hLoop := has_loop nodeId (fun i => i) (countOf_le countCores cores)
      rw [List.map_id'] at hLoop
      exact hLoop
  | numaAware =>
      have hLoop := has_loop nodeId
        (fun i => (sortedCores countCores nodeId).getD i 0) (countOf_le countCores cores)
      have hLength : (sortedCores countCores nodeId).length = countCores := by
        rw [sortedCores_perm.length_eq, List.length_range]
      have hTake : (List.range (countOf countCores cores)).map
          (fun i => (sortedCores countCores nodeId).getD i 0) =
          (sortedCores countCores nodeId).take (countOf countCores cores) := by
        refine List.ext_getElem? fun i => ?_
        rw [List.getElem?_map, List.getElem?_take]
        by_cases hi : i < countOf countCores cores
        · have hlt : i < (sortedCores countCores nodeId).length := by
            rw [hLength]
            exact Nat.lt_of_lt_of_le hi (Nat.le_trans (Nat.min_le_right ..) (Nat.min_le_right ..))
          rw [List.getElem?_range hi, if_pos hi, Option.map_some, List.getD_eq_getElem?_getD,
            List.getElem?_eq_getElem hlt, Option.getD_some]
        · rw [List.getElem?_eq_none (by rw [List.length_range]; omega), if_neg hi]
          rfl
      rw [hTake] at hLoop
      exact hLoop

theorem identifiers_build (order : Order) :
    identifiers (build countCores nodeId cores order) = listed countCores nodeId cores order :=
  (has_build countCores nodeId cores order).identifiers_eq

/-- No core is added twice. -/
theorem nodup_build (order : Order) :
    (identifiers (build countCores nodeId cores order)).Nodup := by
  rw [identifiers_build]
  cases order with
  | ascending => exact List.nodup_range
  | numaAware =>
      exact (sortedCores_perm.nodup_iff.mpr List.nodup_range).sublist (List.take_sublist ..)

theorem listed_length (order : Order) :
    (listed countCores nodeId cores order).length = countOf countCores cores := by
  cases order with
  | ascending => exact List.length_range
  | numaAware =>
      rw [listed, List.length_take, sortedCores_perm.length_eq, List.length_range]
      exact Nat.min_eq_left (Nat.le_trans (Nat.min_le_right ..) (Nat.min_le_right ..))

theorem listed_lt (order : Order) :
    ∀ core ∈ listed countCores nodeId cores order, core < countCores := by
  intro core hCore
  cases order with
  | ascending =>
      have hlt := List.mem_range.mp hCore
      exact Nat.lt_of_lt_of_le hlt (Nat.le_trans (Nat.min_le_right ..) (Nat.min_le_right ..))
  | numaAware =>
      exact List.mem_range.mp (sortedCores_perm.mem_iff.mp (List.mem_of_mem_take hCore))

/-- The cores behind the first ones come later in the order. -/
theorem listed_sorted :
    (listed countCores nodeId cores .numaAware).Pairwise
      (fun left right => less nodeId left right) ∧
    ∀ core ∈ listed countCores nodeId cores .numaAware, ∀ other < countCores,
      other ∉ listed countCores nodeId cores .numaAware → less nodeId core other := by
  have hSorted := sortedCores_sorted countCores nodeId
  refine ⟨hSorted.sublist (List.take_sublist ..), fun core hCore other hOther hNot => ?_⟩
  have hSplit := List.take_append_drop (countOf countCores cores) (sortedCores countCores nodeId)
  have hMem : other ∈ (sortedCores countCores nodeId).drop (countOf countCores cores) := by
    have hAll : other ∈ sortedCores countCores nodeId :=
      sortedCores_perm.mem_iff.mpr (List.mem_range.mpr hOther)
    rw [← hSplit] at hAll
    exact (List.mem_append.mp hAll).resolve_left hNot
  rw [← hSplit] at hSorted
  exact (List.pairwise_append.mp hSorted).2.2 core hCore other hMem

/-- The identifiers are below `max_cores()` exactly if enough other cores come before those
that are not. -/
theorem listed_indexed_iff (order : Order) :
    (∀ core ∈ listed countCores nodeId cores order, core < maxCores) ↔
      (order = .ascending ∨ ∀ core < countCores, maxCores ≤ core →
        countOf countCores cores ≤ before countCores nodeId core) := by
  cases order with
  | ascending =>
      refine iff_of_true (fun core hCore => ?_) (Or.inl rfl)
      exact Nat.lt_of_lt_of_le (List.mem_range.mp hCore) (countOf_le countCores cores)
  | numaAware =>
      constructor
      · intro hIndexed
        refine Or.inr fun core hCore hLarge => ?_
        by_contra hFew
        have hMem := (mem_first_iff hCore).mpr (not_le.mp hFew)
        exact absurd (hIndexed core hMem) (not_lt.mpr hLarge)
      · rintro (hAscending | hMany) core hMem
        · cases hAscending
        · by_contra hLarge
          have hCore := listed_lt countCores nodeId cores .numaAware core hMem
          have hFew := (mem_first_iff hCore).mp hMem
          exact absurd (hMany core hCore (not_lt.mp hLarge)) (not_le.mpr hFew)

/-- `build` yields a valid core set exactly if every core whose identifier is too large comes
late enough in the order. -/
theorem build_valid_iff (order : Order) :
    Valid countCores nodeId cores order (build countCores nodeId cores order) ↔
      (order = .ascending ∨ ∀ core < countCores, maxCores ≤ core →
        countOf countCores cores ≤ before countCores nodeId core) := by
  have hHas := has_build countCores nodeId cores order
  have hEq := identifiers_build countCores nodeId cores order
  rw [← listed_indexed_iff]
  constructor
  · intro hValid
    rw [← hEq]
    exact hValid.indexed
  · intro hIndexed
    refine ⟨hHas.size.trans (listed_length ..), ?_, ?_, ?_, fun hOrder => ?_, fun node hNode => ?_⟩
    · exact nodup_build countCores nodeId cores order
    · rw [hEq]
      exact listed_lt countCores nodeId cores order
    · rw [hEq]
      exact hIndexed
    · subst hOrder
      rw [hEq]
      exact listed_sorted countCores nodeId cores
    · rw [hEq, hasCoreOfNumaNode, if_pos hNode, Option.some.injEq]
      exact hHas.node node

end Build

/-- A machine with 129 cores, the last one alone on the first node. -/
def lastFirst (core : Nat) : Nat := if core = 128 then 0 else 1

/-- One core is asked for, and its identifier is outside the tables. -/
theorem last_core_first : ¬ Valid 129 lastFirst 1 .numaAware (build 129 lastFirst 1 .numaAware) ∧
    identifiers (build 129 lastFirst 1 .numaAware) = [128] := by
  have hMem : 128 ∈ listed 129 lastFirst 1 .numaAware := (mem_first_iff (by decide)).mpr (by decide)
  have hLength := listed_length 129 lastFirst 1 .numaAware
  have hEq := identifiers_build 129 lastFirst 1 .numaAware
  have hListed : listed 129 lastFirst 1 .numaAware = [128] := by
    obtain ⟨core, hCore⟩ := List.length_eq_one_iff.mp hLength
    rw [hCore, List.mem_singleton] at hMem
    rw [hCore, hMem]
  rw [hEq, hListed]
  refine ⟨fun hValid => ?_, rfl⟩
  have hIndexed := hValid.indexed 128
  rw [hEq, hListed] at hIndexed
  exact absurd (hIndexed (List.mem_singleton_self _)) (by decide)

end CoreSet

end MxTasking.Util
