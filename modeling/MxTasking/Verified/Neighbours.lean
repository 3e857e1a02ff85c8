import Mathlib.Data.List.Nodup

/-!
# Neighbours in a list

A linked list in memory is read as a list of addresses; what its links say is a statement about
pairs of neighbours.  `Adjacent l x y` says that `y` comes directly after `x` in `l`.

## Main results

* `adjacent_append` — neighbours in two lists put together.
* `Adjacent.right_unique`, `Adjacent.ne_last` — without repetition a node has one successor,
  and the last one has none.
-/

namespace MxTasking.Verified.Neighbours

variable {α : Type*}

/-- `y` comes directly after `x`. -/
def Adjacent : List α → α → α → Prop
  | a :: b :: l, x, y => (x = a ∧ y = b) ∨ Adjacent (b :: l) x y
  | _, _, _ => False

variable {l l₁ l₂ : List α} {a x y z : α}

@[simp] theorem not_adjacent_nil : ¬ Adjacent ([] : List α) x y := not_false

@[simp] theorem not_adjacent_singleton : ¬ Adjacent [a] x y := not_false

theorem adjacent_cons : Adjacent (a :: l) x y ↔ (x = a ∧ l.head? = some y) ∨ Adjacent l x y := by
  cases l with
  | nil => simp
  | cons b l => simp [Adjacent, eq_comm]

theorem Adjacent.mem_left (h : Adjacent l x y) : x ∈ l := by
  induction l with
  | nil => exact absurd h not_adjacent_nil
  | cons a l ih =>
      rcases adjacent_cons.mp h with ⟨rfl, _⟩ | h
      · exact List.mem_cons_self ..
      · exact List.mem_cons_of_mem a (ih h)

theorem Adjacent.mem_right (h : Adjacent l x y) : y ∈ l := by
  induction l with
  | nil => exact absurd h not_adjacent_nil
  | cons a l ih =>
      rcases adjacent_cons.mp h with ⟨_, hHead⟩ | h
      · exact List.mem_cons_of_mem a (List.mem_of_mem_head? hHead)
      · exact List.mem_cons_of_mem a (ih h)

/-- The neighbours of two lists put together are those of the lists, and the last of the first
with the first of the second. -/
theorem adjacent_append : Adjacent (l₁ ++ l₂) x y ↔
    Adjacent l₁ x y ∨ Adjacent l₂ x y ∨ (l₁.getLast? = some x ∧ l₂.head? = some y) := by
  induction l₁ with
  | nil => simp
  | cons a l ih =>
      rw [List.cons_append, adjacent_cons, ih, adjacent_cons]
      cases l with
      | nil => simp [eq_comm, or_comm]
      | cons b l =>
          rw [List.getLast?_cons_cons]
          simp only [List.cons_append, List.head?_cons]
          tauto

/-- Without repetition the last element has no successor. -/
theorem Adjacent.ne_last (h : Adjacent l x y) (hNodup : l.Nodup) : l.getLast? ≠ some x := by
  induction l with
  | nil => exact absurd h not_adjacent_nil
  | cons a l ih =>
      rw [List.nodup_cons] at hNodup
      cases l with
      | nil => exact absurd h not_adjacent_singleton
      | cons b l =>
          rw [List.getLast?_cons_cons]
          rcases adjacent_cons.mp h with ⟨rfl, _⟩ | h
          · exact fun hLast => hNodup.1 (List.mem_of_getLast? hLast)
          · exact ih h hNodup.2

/-- Without repetition an element has one successor. -/
theorem Adjacent.right_unique (h : Adjacent l x y) (h' : Adjacent l x z) (hNodup : l.Nodup) :
    y = z := by
  induction l with
  | nil => exact absurd h not_adjacent_nil
  | cons a l ih =>
      rw [List.nodup_cons] at hNodup
      rcases adjacent_cons.mp h with ⟨rfl, hHead⟩ | hIn
      · rcases adjacent_cons.mp h' with ⟨_, hHead'⟩ | hIn'
        · exact Option.some.inj (hHead.symm.trans hHead')
        · exact absurd hIn'.mem_left hNodup.1
      · rcases adjacent_cons.mp h' with ⟨rfl, _⟩ | hIn'
        · exact absurd hIn.mem_left hNodup.1
        · exact ih hIn hIn' hNodup.2

end MxTasking.Verified.Neighbours
