import Mathlib.Data.List.Nodup
import Mathlib.Logic.Function.Basic
import Mathlib.Logic.Relation

/-!
# Linked lists

Links are a partial function from an element to the one behind it.  Several lists may share the
links as long as they have no element in common: what changes a link of one of them leaves
the others alone (`Linked.congr`).

## Main results

* `Linked.append` — two lists become one when the last element of the first is linked.
* `Linked.reachable_iff` — what the links lead to from the first element is the list.
-/

namespace MxTasking.Verified.LinkedList

variable {α : Type*} {next next' : α → Option α} {l l₁ l₂ : List α} {x y : α}

/-- The links lead through `l`, and the last element has none. -/
def Linked (next : α → Option α) : List α → Prop
  | [] => True
  | x :: l => next x = l.head? ∧ Linked next l

/-- `y` is found from `x` by following links. -/
def Reachable (next : α → Option α) : α → α → Prop :=
  Relation.ReflTransGen fun x y => next x = some y

theorem Linked.congr (h : Linked next l) (hEq : ∀ x ∈ l, next' x = next x) : Linked next' l := by
  induction l with
  | nil => trivial
  | cons a l ih =>
      refine ⟨?_, ih h.2 fun x hx => hEq x (List.mem_cons_of_mem a hx)⟩
      rw [hEq a (List.mem_cons_self ..)]
      exact h.1

theorem Linked.last (h : Linked next l) (hLast : l.getLast? = some x) : next x = none := by
  induction l with
  | nil => exact absurd hLast (by simp)
  | cons a l ih =>
      cases l with
      | nil =>
          obtain rfl : a = x := by simpa using hLast
          exact h.1
      | cons b l =>
          rw [List.getLast?_cons_cons] at hLast
          exact ih h.2 hLast

section Update

variable [DecidableEq α]

theorem linked_singleton (next : α → Option α) (x : α) :
    Linked (Function.update next x none) [x] :=
  ⟨Function.update_self .., trivial⟩

/-- The link of an element of another list is written. -/
theorem Linked.update (h : Linked next l) (hx : x ∉ l) (link : Option α) :
    Linked (Function.update next x link) l := by
  refine h.congr fun y hy => Function.update_of_ne ?_ _ _
  rintro rfl
  exact hx hy

/-- The last element of `l₁` is linked to the first of `l₂`. -/
theorem Linked.append (h₁ : Linked next l₁) (h₂ : Linked next l₂) (hNodup : (l₁ ++ l₂).Nodup)
    (hLast : l₁.getLast? = some x) (hFirst : l₂.head? = some y) :
    Linked (Function.update next x (some y)) (l₁ ++ l₂) := by
  induction l₁ with
  | nil => exact absurd hLast (by simp)
  | cons a l ih =>
      rw [List.cons_append, List.nodup_cons] at hNodup
      cases l with
      | nil =>
          obtain rfl : a = x := by simpa using hLast
          refine ⟨?_, h₂.update hNodup.1 _⟩
          rw [Function.update_self]
          exact hFirst.symm
      | cons b l =>
          rw [List.getLast?_cons_cons] at hLast
          have hne : a ≠ x := by
            rintro rfl
            exact hNodup.1 (List.mem_append_left _ (List.mem_of_getLast? hLast))
          refine ⟨?_, ih h₁.2 hNodup.2 hLast⟩
          rw [Function.update_of_ne hne]
          exact h₁.1

end Update

theorem Linked.reachable_of_mem (h : Linked next l) (hFirst : l.head? = some x) (hy : y ∈ l) :
    Reachable next x y := by
  induction l generalizing x with
  | nil => exact absurd hFirst (by simp)
  | cons a l ih =>
      obtain rfl : a = x := by simpa using hFirst
      rcases List.mem_cons.mp hy with rfl | hy
      · exact Relation.ReflTransGen.refl
      · cases l with
        | nil => exact absurd hy (by simp)
        | cons b l => exact Relation.ReflTransGen.head h.1 (ih h.2 rfl hy)

theorem Linked.next_mem (h : Linked next l) (hx : x ∈ l) (hNext : next x = some y) : y ∈ l := by
  induction l with
  | nil => exact absurd hx (by simp)
  | cons a l ih =>
      rcases List.mem_cons.mp hx with rfl | hx
      · rw [h.1] at hNext
        exact List.mem_cons_of_mem x (List.mem_of_mem_head? hNext)
      · exact List.mem_cons_of_mem a (ih h.2 hx)

/-- What the links lead to from the first element. -/
theorem Linked.reachable_iff (h : Linked next l) (hFirst : l.head? = some x) :
    Reachable next x y ↔ y ∈ l := by
  refine ⟨fun hReach => ?_, h.reachable_of_mem hFirst⟩
  induction hReach with
  | refl => exact List.mem_of_mem_head? hFirst
  | tail _ hNext ih => exact h.next_mem ih hNext

end MxTasking.Verified.LinkedList
