import Mathlib.Data.Nat.ModEq
import Mathlib.Data.List.Nodup
import Mathlib.Data.List.Range
import Mathlib.Logic.Function.Basic

/-!
# Ring buffers

A ring of `S` slots with a head and a tail index.  A slot is empty or holds an element; the
elements lie in consecutive slots from the head on, and the tail is the slot behind the last one
(`IsRing`).  A full ring and an empty one have equal indices, so the distance of the
indices tells the number of elements only while the ring is not full.

## Main results

* `IsRing.pushBack`, `IsRing.popFront` — the operations, on the list of elements.
* `IsRing.slot_tail` — the tail slot of a ring that is not full is empty.
* `IsRing.distance` — what the indices tell of the number of elements.
* `IsRing.contents_eq`, `IsRing.occupied_eq` — reading the list and its length off the slots.
* `Ahead.pushBack`, `Ahead.popFront` — notes about elements a fixed distance behind.
-/

namespace MxTasking.Verified.RingBuffer

variable {α : Type*}

/-- The elements `xs` lie from slot `head` on, and the other slots are empty. -/
structure IsRing (S : Nat) (slots : Nat → Option α) (head tail : Nat) (xs : List α) : Prop where
  length_le : xs.length ≤ S
  head_lt : head < S
  tail_eq : tail = (head + xs.length) % S
  slot : ∀ j, j < S → slots ((head + j) % S) = xs[j]?

/-- The elements in the order of the ring. -/
def contents (S : Nat) (slots : Nat → Option α) (head : Nat) : List α :=
  (List.range S).filterMap fun j => slots ((head + j) % S)

/-- The number of slots that are not empty. -/
def occupied (S : Nat) (slots : Nat → Option α) : Nat :=
  (List.range S).countP fun i => (slots i).isSome

/-- Different offsets below `S` are different slots. -/
theorem offset_inj {S head i j : Nat} (hi : i < S) (hj : j < S)
    (h : (head + i) % S = (head + j) % S) : i = j := by
  have hMod : i % S = j % S := Nat.ModEq.add_left_cancel' head h
  rwa [Nat.mod_eq_of_lt hi, Nat.mod_eq_of_lt hj] at hMod

/-- Every slot has an offset. -/
theorem exists_offset {S head i : Nat} (hHead : head < S) (hi : i < S) :
    ∃ j, j < S ∧ (head + j) % S = i := by
  rcases Nat.lt_or_ge i head with hlt | hge
  · refine ⟨i + S - head, by omega, ?_⟩
    rw [show head + (i + S - head) = i + S by omega, Nat.add_mod_right, Nat.mod_eq_of_lt hi]
  · refine ⟨i - head, by omega, ?_⟩
    rw [show head + (i - head) = i by omega, Nat.mod_eq_of_lt hi]

/-- Reading a list by its indices. -/
theorem filterMap_range_getElem? {xs : List α} {n : Nat} (h : xs.length ≤ n) :
    (List.range n).filterMap (fun j => xs[j]?) = xs := by
  induction xs generalizing n with
  | nil => simp
  | cons x xs ih =>
      obtain ⟨n, rfl⟩ : ∃ m, n = m + 1 := ⟨n - 1, by rw [List.length_cons] at h; omega⟩
      rw [List.range_succ_eq_map, List.filterMap_cons_some List.getElem?_cons_zero,
        List.filterMap_map]
      congr 1
      exact ih (Nat.le_of_succ_le_succ h)

namespace IsRing

variable {S head tail : Nat} {slots : Nat → Option α} {xs : List α} {x : α}

theorem pos (h : IsRing S slots head tail xs) : 0 < S :=
  Nat.lt_of_le_of_lt (Nat.zero_le head) h.head_lt

theorem empty (hS : 0 < S) : IsRing S (fun _ => (none : Option α)) 0 0 [] where
  length_le := Nat.zero_le S
  head_lt := hS
  tail_eq := (Nat.zero_mod S).symm
  slot := fun _ _ => rfl

theorem tail_lt (h : IsRing S slots head tail xs) : tail < S := by
  rw [h.tail_eq]
  exact Nat.mod_lt _ h.pos

/-- The head slot holds the first element. -/
theorem slot_head (h : IsRing S slots head tail xs) : slots head = xs.head? := by
  have hSlot := h.slot 0 h.pos
  rwa [Nat.add_zero, Nat.mod_eq_of_lt h.head_lt, ← List.head?_eq_getElem?] at hSlot

theorem eq_nil_iff (h : IsRing S slots head tail xs) : slots head = none ↔ xs = [] := by
  rw [h.slot_head, List.head?_eq_none_iff]

/-- The tail slot of a ring that is not full is empty. -/
theorem slot_tail (h : IsRing S slots head tail xs) (hRoom : xs.length < S) :
    slots tail = none := by
  rw [h.tail_eq, h.slot _ hRoom]
  simp

/-- An element is put into the tail slot. -/
theorem pushBack (h : IsRing S slots head tail xs) (hRoom : xs.length < S) (x : α) :
    IsRing S (Function.update slots tail (some x)) head ((tail + 1) % S) (xs ++ [x]) where
  length_le := by
    rw [List.length_append, List.length_singleton]
    exact hRoom
  head_lt := h.head_lt
  tail_eq := by
    rw [h.tail_eq, Nat.mod_add_mod, List.length_append, List.length_singleton, Nat.add_assoc]
  slot := by
    intro j hj
    by_cases hEq : j = xs.length
    · subst hEq
      rw [← h.tail_eq, Function.update_self]
      simp
    · have hne : (head + j) % S ≠ tail := by
        rw [h.tail_eq]
        exact fun hSame => hEq (offset_inj hj hRoom hSame)
      rw [Function.update_of_ne hne, h.slot j hj]
      rcases Nat.lt_or_gt_of_ne hEq with hlt | hgt
      · rw [List.getElem?_append_left hlt]
      · rw [List.getElem?_eq_none (by omega), List.getElem?_eq_none]
        rw [List.length_append, List.length_singleton]
        omega

/-- The head slot is emptied. -/
theorem popFront (h : IsRing S slots head tail (x :: xs)) :
    IsRing S (Function.update slots head none) ((head + 1) % S) tail xs where
  length_le := Nat.le_of_succ_le h.length_le
  head_lt := Nat.mod_lt _ h.pos
  tail_eq := by
    rw [h.tail_eq, Nat.mod_add_mod, List.length_cons]
    congr 1
    omega
  slot := by
    intro j hj
    have hLength := h.length_le
    rw [List.length_cons] at hLength
    rw [Nat.mod_add_mod, Nat.add_assoc, Nat.add_comm 1 j]
    by_cases hLast : j + 1 = S
    · -- once around: the slot that has just been emptied
      rw [hLast, Nat.add_mod_right, Nat.mod_eq_of_lt h.head_lt, Function.update_self,
        List.getElem?_eq_none (by omega)]
    · have hNext : j + 1 < S := by omega
      have hne : (head + (j + 1)) % S ≠ head := by
        intro hSame
        have hZero := offset_inj hNext h.pos
          (hSame.trans (by rw [Nat.add_zero, Nat.mod_eq_of_lt h.head_lt]))
        omega
      rw [Function.update_of_ne hne, h.slot _ hNext, List.getElem?_cons_succ]

/-- The distance of the indices is the number of elements, unless the ring is full. -/
theorem distance (h : IsRing S slots head tail xs) (hRoom : xs.length < S) :
    (if head ≤ tail then tail - head else S - (head - tail)) = xs.length := by
  have hHead := h.head_lt
  rw [h.tail_eq]
  rcases Nat.lt_or_ge (head + xs.length) S with hlt | hge
  · rw [Nat.mod_eq_of_lt hlt, if_pos (Nat.le_add_right ..)]
    omega
  · rw [Nat.mod_eq_sub_mod hge, Nat.mod_eq_of_lt (by omega), if_neg (by omega)]
    omega

theorem contents_eq (h : IsRing S slots head tail xs) : contents S slots head = xs := by
  have hSlots : contents S slots head = (List.range S).filterMap fun j => xs[j]? := by
    unfold contents
    refine List.filterMap_congr fun j hj => ?_
    exact h.slot j (List.mem_range.mp hj)
  rw [hSlots]
  exact filterMap_range_getElem? h.length_le

theorem occupied_eq (h : IsRing S slots head tail xs) : occupied S slots = xs.length := by
  have hPerm : ((List.range S).map fun j => (head + j) % S).Perm (List.range S) := by
    refine (List.perm_ext_iff_of_nodup ?_ List.nodup_range).mpr fun i => ?_
    · refine List.Nodup.map_on (fun i hi j hj hEq => ?_) List.nodup_range
      exact offset_inj (List.mem_range.mp hi) (List.mem_range.mp hj) hEq
    · rw [List.mem_map, List.mem_range]
      constructor
      · rintro ⟨j, -, rfl⟩
        exact Nat.mod_lt _ h.pos
      · intro hi
        obtain ⟨j, hj, hEq⟩ := exists_offset h.head_lt hi
        exact ⟨j, List.mem_range.mpr hj, hEq⟩
  calc occupied S slots
      = ((List.range S).map fun j => (head + j) % S).countP fun i => (slots i).isSome :=
        (hPerm.countP_eq _).symm
    _ = (List.range S).countP fun j => (slots ((head + j) % S)).isSome := List.countP_map
    _ = (contents S slots head).length := List.length_filterMap_eq_countP.symm
    _ = xs.length := by rw [h.contents_eq]

end IsRing

/-! ## Notes about elements further behind -/

/-- Beside every slot there is a note about the element that is `d` places behind the one in the
slot. -/
def Ahead {β : Type*} (S d : Nat) (notes : Nat → β) (head : Nat) (note : Option α → β)
    (xs : List α) : Prop :=
  ∀ j, j < S → notes ((head + j) % S) = note xs[j + d]?

section Ahead

variable {β : Type*} {S d head tail : Nat} {slots : Nat → Option α} {notes : Nat → β}
  {note : Option α → β} {xs : List α} {x : α}

/-- `d` slots before the tail, counted from the head. -/
theorem IsRing.back_eq (h : IsRing S slots head tail xs) (hd : d ≤ xs.length) :
    (tail + S - d) % S = (head + (xs.length - d)) % S := by
  have hLength := h.length_le
  rw [h.tail_eq, Nat.add_sub_assoc (by omega), Nat.mod_add_mod,
    show head + xs.length + (S - d) = head + (xs.length - d) + S by omega, Nat.add_mod_right]

/-- The slot `d` before the tail has an element if there are that many. -/
theorem IsRing.slot_back (h : IsRing S slots head tail xs) (hd : d ≤ xs.length) (hPos : 0 < d) :
    slots ((tail + S - d) % S) = xs[xs.length - d]? := by
  have hLength := h.length_le
  rw [h.back_eq hd, h.slot _ (by omega)]

/-- There is no note about an element that is not there. -/
theorem Ahead.back (h : Ahead S d notes head note xs) (hRing : IsRing S slots head tail xs)
    (hd : d ≤ xs.length) (hPos : 0 < d) : notes ((tail + S - d) % S) = note none := by
  have hLength := hRing.length_le
  rw [hRing.back_eq hd, h _ (by omega), List.getElem?_eq_none (by omega)]

/-- A new element is noted `d` slots before it. -/
theorem Ahead.pushBack (h : Ahead S d notes head note xs) (hRing : IsRing S slots head tail xs)
    (hd : d ≤ xs.length) (hPos : 0 < d) (x : α) :
    Ahead S d (Function.update notes ((tail + S - d) % S) (note (some x))) head note
      (xs ++ [x]) := by
  have hLength := hRing.length_le
  intro j hj
  rw [hRing.back_eq hd]
  by_cases hEq : j = xs.length - d
  · subst hEq
    rw [Function.update_self, List.getElem?_append_right (by omega)]
    simp [hd]
  · have hne : (head + j) % S ≠ (head + (xs.length - d)) % S :=
      fun hSame => hEq (offset_inj hj (by omega) hSame)
    rw [Function.update_of_ne hne, h j hj]
    congr 1
    rcases Nat.lt_or_ge (j + d) xs.length with hlt | hge
    · rw [List.getElem?_append_left hlt]
    · rw [List.getElem?_eq_none (by omega), List.getElem?_eq_none]
      rw [List.length_append, List.length_singleton]
      omega

/-- A new element with fewer than `d` before it is not noted. -/
theorem Ahead.pushBack_short (h : Ahead S d notes head note xs) (hd : xs.length < d) (x : α) :
    Ahead S d notes head note (xs ++ [x]) := by
  intro j hj
  rw [h j hj, List.getElem?_eq_none (by omega), List.getElem?_eq_none]
  rw [List.length_append, List.length_singleton]
  omega

/-- The note of the head slot goes with its element. -/
theorem Ahead.popFront (h : Ahead S d notes head note (x :: xs))
    (hRing : IsRing S slots head tail (x :: xs)) :
    Ahead S d (Function.update notes head (note none)) ((head + 1) % S) note xs := by
  have hLength := hRing.length_le
  rw [List.length_cons] at hLength
  intro j hj
  rw [Nat.mod_add_mod, Nat.add_assoc, Nat.add_comm 1 j]
  by_cases hLast : j + 1 = S
  · rw [hLast, Nat.add_mod_right, Nat.mod_eq_of_lt hRing.head_lt, Function.update_self,
      List.getElem?_eq_none (by omega)]
  · have hNext : j + 1 < S := by omega
    have hne : (head + (j + 1)) % S ≠ head := by
      intro hSame
      have hZero := offset_inj hNext hRing.pos
        (hSame.trans (by rw [Nat.add_zero, Nat.mod_eq_of_lt hRing.head_lt]))
      omega
    rw [Function.update_of_ne hne, h _ hNext, Nat.add_right_comm, List.getElem?_cons_succ]

end Ahead

end MxTasking.Verified.RingBuffer
