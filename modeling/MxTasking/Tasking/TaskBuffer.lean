import MxTasking.Verified.RingBuffer

/-!
# The task buffer

`task_buffer.h`: a ring of `config::task_buffer_size()` slots with the tasks that are
ready to execute.  Each slot also remembers a task to prefetch when it is reached; nothing but
the prefetch instructions reads it.

`fill` takes tasks from a queue while others push to it, so its loop is cut into rounds: `put` is
the rest of a round behind `pop_front`.

## Main results

* `Holds.next`, `Holds.put` — the operations, on the list of buffered tasks.
* `Holds.availableSlots_eq` — the free slots, unless the buffer is full.
* `prefetchTail_lt` — the slot to prefetch for is one of the buffer.
-/

namespace MxTasking.Tasking

open MxTasking.Verified.RingBuffer

/-- `config::task_buffer_size()`. -/
def taskBufferSize : Nat := 64

/-- `TaskBuffer`; a slot has a task and a task to prefetch. -/
structure TaskBuffer (T : Type*) where
  prefetchDistance : Nat
  head : Nat
  tail : Nat
  tasks : Nat → Option T
  prefetchSlots : Nat → Option T

namespace TaskBuffer

variable {T : Type*}

/-- The constructor. -/
def construct (prefetchDistance : Nat) : TaskBuffer T :=
  ⟨prefetchDistance, 0, 0, fun _ => none, fun _ => none⟩

/-- `empty()`. -/
def empty (b : TaskBuffer T) : Bool := (b.tasks b.head).isNone

/-- `size()`. -/
def size (b : TaskBuffer T) : Nat :=
  if b.head ≤ b.tail then b.tail - b.head else taskBufferSize - (b.head - b.tail)

/-- `available_slots()`. -/
def availableSlots (b : TaskBuffer T) : Nat := taskBufferSize - b.size

/-- `normalize(index)`. -/
def normalize (index : Nat) : Nat := index &&& (taskBufferSize - 1)

/-- `normalize_backward(index, offset)`, in 16 bits. -/
def normalizeBackward (index offset : Nat) : Nat :=
  if offset ≤ index then index - offset
  else (taskBufferSize + 2 ^ 16 - (offset - index)) % 2 ^ 16

/-- `next()`. -/
def next (b : TaskBuffer T) : TaskBuffer T × Option T :=
  match b.tasks b.head with
  | none => (b, none)
  | some task =>
      ({ b with
          prefetchSlots := Function.update b.prefetchSlots b.head none
          tasks := Function.update b.tasks b.head none
          head := normalize (b.head + 1) },
        some task)

/-- The rest of a round of `fill`: `size` tasks were in the buffer before it, this is
round `i`, and `prefetchTail` is the slot to prefetch the task for. -/
def put (b : TaskBuffer T) (task : T) (size i prefetchTail : Nat) : TaskBuffer T :=
  { b with
    prefetchSlots :=
      if 0 < b.prefetchDistance ∧ b.prefetchDistance ≤ size + i then
        Function.update b.prefetchSlots prefetchTail (some task)
      else b.prefetchSlots
    tasks := Function.update b.tasks b.tail (some task)
    tail := normalize (b.tail + 1) }

/-- The tasks in the buffer, in the order of the ring. -/
def contents (b : TaskBuffer T) : List T :=
  Verified.RingBuffer.contents taskBufferSize b.tasks b.head

/-- The number of slots that hold a task. -/
def occupied (b : TaskBuffer T) : Nat := Verified.RingBuffer.occupied taskBufferSize b.tasks

/-! ## The buffer as a ring -/

/-- The tasks `xs` are in the buffer. -/
def Holds (b : TaskBuffer T) (xs : List T) : Prop :=
  IsRing taskBufferSize b.tasks b.head b.tail xs

theorem normalize_eq (index : Nat) : normalize index = index % taskBufferSize :=
  Nat.and_two_pow_sub_one_eq_mod index 6

theorem holds_construct (prefetchDistance : Nat) :
    (construct prefetchDistance : TaskBuffer T).Holds [] :=
  IsRing.empty (by decide)

namespace Holds

variable {b : TaskBuffer T} {xs : List T}

theorem empty_iff (h : b.Holds xs) : b.empty = true ↔ xs = [] := by
  rw [← h.eq_nil_iff, empty, Option.isNone_iff_eq_none]

theorem size_eq (h : b.Holds xs) (hRoom : xs.length < taskBufferSize) : b.size = xs.length :=
  h.distance hRoom

/-- A full buffer seems to be empty; in all other cases the number is right. -/
theorem availableSlots_eq (h : b.Holds xs) (hRoom : xs.length < taskBufferSize) :
    b.availableSlots + xs.length = taskBufferSize := by
  rw [availableSlots, h.size_eq hRoom]
  omega

theorem next_nil (h : b.Holds []) : b.next = (b, none) := by
  have hNone : b.tasks b.head = none := h.eq_nil_iff.mpr rfl
  simp only [next, hNone]

/-- `next()` returns null when the buffer is empty. -/
theorem next_none (h : b.Holds xs) {b' : TaskBuffer T} (hNext : b.next = (b', none)) :
    xs = [] ∧ b' = b := by
  rw [← h.eq_nil_iff]
  unfold TaskBuffer.next at hNext
  split at hNext
  · rename_i hNone
    exact ⟨hNone, (Prod.mk.inj hNext).1.symm⟩
  · exact absurd hNext (by simp)

theorem next (h : b.Holds xs) {task : T} {b' : TaskBuffer T}
    (hNext : b.next = (b', some task)) : ∃ rest, xs = task :: rest ∧ b'.Holds rest := by
  have hHead : b.tasks b.head = xs.head? := h.slot_head
  cases xs with
  | nil =>
      rw [h.next_nil] at hNext
      exact absurd hNext (by simp)
  | cons x rest =>
      simp only [TaskBuffer.next, hHead, List.head?_cons, Prod.mk.injEq, Option.some.injEq]
        at hNext
      obtain ⟨rfl, rfl⟩ := hNext
      refine ⟨rest, rfl, ?_⟩
      unfold Holds
      rw [normalize_eq]
      exact h.popFront

theorem put (h : b.Holds xs) (hRoom : xs.length < taskBufferSize) (task : T)
    (size i prefetchTail : Nat) : (b.put task size i prefetchTail).Holds (xs ++ [task]) := by
  unfold Holds TaskBuffer.put
  dsimp only
  rw [normalize_eq]
  exact h.pushBack hRoom task

/-- The slot a task is put into is empty. -/
theorem tail_isNone (h : b.Holds xs) (hRoom : xs.length < taskBufferSize) :
    b.tasks b.tail = none :=
  h.slot_tail hRoom

end Holds

/-- Where a task is prefetched at all, the slot to prefetch it for is one of the buffer. -/
theorem prefetchTail_lt {tail offset : Nat} (hTail : tail < taskBufferSize)
    (hOffset : offset < taskBufferSize) : normalizeBackward tail offset < taskBufferSize := by
  unfold normalizeBackward
  unfold taskBufferSize at *
  split
  · omega
  · omega

end TaskBuffer

end MxTasking.Tasking
