import MxTasking.Tasking.Channel

/-!
# Prefetching from the task buffer

`task_buffer.h` and `prefetch_slot.h` for every size `S` and every prefetch distance, and
`Channel::fill` on top of them.  A task that is put into the buffer is also noted in the slot of the
task that is the prefetch distance before it; when that task is returned, the noted one is
prefetched.

Indices have 16 bits.  What the backend queues hand out while `fill` runs is not determined by the
program, so every call has its own `Offer`.  Every placement and every call of `next()` is
recorded with what it found; the program does not read these records.

A full buffer and an empty one have equal indices, and `available_slots()` takes the full one to be
empty.  `Worker` and `ProfilingTask` never fill a full buffer (`Tasking.room_when_filling`).

## Main results

* `toChannel_next`, `turns_takeFrom` — for 64 slots, this is the buffer of a channel.
* `Inv.put`, `Inv.next` — the buffer, its prefetch slots and the records.
* `Inv.fill` — `Channel::fill` on a buffer that is not full.
* `prefetched_of_run` — every prefetch is issued at the right distance, and no other is.
-/

namespace MxTasking.Tasking.Prefetching

open MxTasking.Verified MxTasking.Verified.RingBuffer

/-! ## The program -/

/-- `PrefetchSlot`: a task, and a resource with its size; null pointers are `none`. -/
structure PrefetchSlot (T R : Type*) where
  task : Option T
  resource : Option R
  deriving DecidableEq, Repr

/-- `TaskBuffer`. -/
structure TaskBuffer (T R : Type*) where
  prefetchDistance : Nat
  head : Nat
  tail : Nat
  tasks : Nat → Option T
  prefetchSlots : Nat → PrefetchSlot T R

/-- A task that was put into the buffer: how many tasks had been returned by then and how many slots
held a task, the slot it went to and what this slot held, the slot its prefetch was attached
to, and what `prefetch_tail` pointed at. -/
structure Placement (T R : Type*) where
  task : T
  returned : Nat
  occupied : Nat
  slot : Nat
  overwritten : Option T
  attachedTo : Option Nat
  holder : Option T
  pending : PrefetchSlot T R

/-- A call of `next()`: how many tasks had been returned before, what it returned and what it
prefetched. -/
structure Call (T R : Type*) where
  number : Nat
  result : Option T
  issued : PrefetchSlot T R

structure State (T R : Type*) where
  buffer : TaskBuffer T R
  returned : Nat
  placements : List (Placement T R)
  calls : List (Call T R)

/-- What the queues of a priority hand out during a call of `fill`; the remote ones are in
the order in which they are asked. -/
structure Offer (T : Type*) where
  localQueue : List T
  remoteQueues : Nat → List T

variable {T R : Type*}

/-- `PrefetchSlot::operator=(task)`; a task may have no resource annotated, or a null pointer. -/
def PrefetchSlot.assign (annotated : T → Option (Option R)) (slot : PrefetchSlot T R) (task : T) :
    PrefetchSlot T R where
  task := some task
  resource :=
    match annotated task with
    | some resource => resource
    | none => slot.resource

/-- `normalize(index)`. -/
def normalize (S index : Nat) : Nat := (index % 2 ^ 16) &&& (S - 1)

/-- `normalize_backward(index, offset)`. -/
def normalizeBackward (S index offset : Nat) : Nat :=
  if offset ≤ index then index - offset else (S + 2 ^ 64 - (offset - index)) % 2 ^ 64 % 2 ^ 16

namespace TaskBuffer

def empty (b : TaskBuffer T R) : Bool := (b.tasks b.head).isNone

/-- `size()`. -/
def size (S : Nat) (b : TaskBuffer T R) : Nat :=
  (if b.head ≤ b.tail then b.tail - b.head else S - (b.head - b.tail)) % 2 ^ 16

/-- `available_slots()`. -/
def availableSlots (S : Nat) (b : TaskBuffer T R) : Nat := (S + 2 ^ 16 - b.size S) % 2 ^ 16

end TaskBuffer

namespace State

def initial (prefetchDistance : Nat) : State T R where
  buffer := ⟨prefetchDistance, 0, 0, fun _ => none, fun _ => ⟨none, none⟩⟩
  returned := 0
  placements := []
  calls := []

/-- `next()`: `slot.prefetch()` issues what the prefetch slot holds and clears it. -/
def next (S : Nat) (s : State T R) : State T R :=
  let b := s.buffer
  match b.tasks b.head with
  | none => { s with calls := s.calls ++ [⟨s.returned, none, ⟨none, none⟩⟩] }
  | some task =>
      { s with
        buffer := { b with
          prefetchSlots := Function.update b.prefetchSlots b.head ⟨none, none⟩
          tasks := Function.update b.tasks b.head none
          head := normalize S (b.head + 1) }
        returned := s.returned + 1
        calls := s.calls ++ [⟨s.returned, some task, b.prefetchSlots b.head⟩] }

section Fill

variable (S : Nat) (annotated : T → Option (Option R))

/-- The rest of round `i` of `TaskBuffer::fill`, behind `pop_front`. -/
def put (s : State T R) (task : T) (size i prefetchTail : Nat) : State T R :=
  let b := s.buffer
  let prefetches := 0 < b.prefetchDistance ∧ b.prefetchDistance ≤ size + i
  { s with
    buffer := { b with
      prefetchSlots :=
        if prefetches then
          Function.update b.prefetchSlots prefetchTail
            ((b.prefetchSlots prefetchTail).assign annotated task)
        else b.prefetchSlots
      tasks := Function.update b.tasks b.tail (some task)
      tail := normalize S (b.tail + 1) }
    placements := s.placements ++
      [{ task := task
         returned := s.returned
         occupied := occupied S b.tasks
         slot := b.tail
         overwritten := b.tasks b.tail
         attachedTo := if prefetches then some prefetchTail else none
         holder := b.tasks prefetchTail
         pending := b.prefetchSlots prefetchTail }] }

/-- The loop of `TaskBuffer::fill`, with `rounds` to go, and the number of tasks it returns. -/
def fillLoop (size : Nat) : Nat → Nat → Nat → List T → State T R → State T R × Nat
  | 0, i, _, _, s => (s, i)
  | _ + 1, i, _, [], s => (s, i)
  | rounds + 1, i, prefetchTail, task :: queue, s =>
      fillLoop size rounds (i + 1) (normalize S (prefetchTail + 1)) queue
        (s.put S annotated task size i prefetchTail)

/-- `TaskBuffer::fill(from_queue, count)`. -/
def fillFrom (s : State T R) (queue : List T) (count : Nat) : State T R × Nat :=
  if count = 0 ∨ queue = [] then (s, 0)
  else
    s.fillLoop S annotated ((S + 2 ^ 64 - count) % 2 ^ 64) count 0
      (normalizeBackward S s.buffer.tail s.buffer.prefetchDistance) queue

/-- `available -= _task_buffer.fill(queue, available)`. -/
def takeFrom (queue : List T) (r : State T R × Nat) : State T R × Nat :=
  let filled := r.1.fillFrom S annotated queue r.2
  (filled.1, r.2 - filled.2)

/-- `Channel::fill<P>(available)`, with what is left of `available`. -/
def fillPriority (s : State T R) (offer : Offer T) (available : Nat) : State T R × Nat :=
  let r := takeFrom S annotated offer.localQueue (s, available)
  if 0 < r.2 then
    (List.range maxNumaNodes).foldl
      (fun r i => takeFrom S annotated (offer.remoteQueues i) r) r
  else r

/-- `Channel::fill()`. -/
def fill (s : State T R) (normal low : Offer T) : State T R :=
  let s := (s.fillPriority S annotated normal (s.buffer.availableSlots S)).1
  if s.buffer.empty then (s.fillPriority S annotated low (S % 2 ^ 16)).1 else s

end Fill

end State

inductive Event (T : Type*) where
  | next
  | fill (normal low : Offer T)

inductive Step (S : Nat) (annotated : T → Option (Option R)) :
    State T R → Event T → State T R → Prop where
  | next {s : State T R} : Step S annotated s .next (s.next S)
  | fill {s : State T R} (normal low : Offer T) :
      Step S annotated s (.fill normal low) (s.fill S annotated normal low)

/-- A buffer that is filled has a free slot. -/
def HasRoom (S : Nat) (s : State T R) : Event T → Prop
  | .next => True
  | .fill _ _ => occupied S s.buffer.tasks < S

/-- What is prefetched for a task. -/
def prefetchOf (annotated : T → Option (Option R)) : Option T → PrefetchSlot T R
  | none => ⟨none, none⟩
  | some task => ⟨some task, (annotated task).join⟩

/-- The prefetches so far were attached and issued at the distance `d`. -/
structure Prefetched (S d : Nat) (annotated : T → Option (Option R)) (s : State T R) : Prop where
  head_lt : s.buffer.head < S
  tail_lt : s.buffer.tail < S
  /-- A task goes to an empty slot. -/
  slot : ∀ p ∈ s.placements, p.slot < S ∧ p.overwritten = none
  /-- Behind `d` other tasks it is noted in the slot of the task `d` before it, which is
  still there and has no prefetch pending. -/
  attached : ∀ i p, s.placements[i]? = some p → d ≤ p.occupied →
    ∃ earlier, d ≤ i ∧ s.placements[i - d]? = some earlier ∧ p.attachedTo = some earlier.slot ∧
      earlier.slot < S ∧ p.holder = some earlier.task ∧ p.pending = ⟨none, none⟩
  not_attached : ∀ p ∈ s.placements, p.occupied < d → p.attachedTo = none
  /-- The calls return the tasks in order. -/
  result : ∀ call ∈ s.calls, call.result ≠ none →
    call.result = s.placements[call.number]?.map Placement.task
  /-- The call that returns the earlier task issues the prefetch. -/
  issued_by : ∀ i p, s.placements[i]? = some p → d ≤ p.occupied → ∀ call ∈ s.calls,
    call.result ≠ none → call.number + d = i → call.issued = prefetchOf annotated (some p.task)
  /-- A prefetch is issued for a task that is returned `d` calls later. -/
  issued_for : ∀ c call, s.calls[c]? = some call → call.issued ≠ ⟨none, none⟩ →
    ∃ p, s.placements[call.number + d]? = some p ∧ d ≤ p.occupied ∧
      call.issued = prefetchOf annotated (some p.task) ∧
      ∀ later, s.calls[c + d]? = some later →
        later.number = call.number + d ∧ later.result = some p.task

/-! ## Indices -/

section Indices

variable {S m d tail : Nat}

theorem normalize_eq (hS : S = 2 ^ m) (hSmall : S ≤ 2 ^ 15) (index : Nat) :
    normalize S index = index % S := by
  have hm : m ≤ 16 := by
    have hPow : 2 ^ m ≤ 2 ^ 16 := by omega
    exact (Nat.pow_le_pow_iff_right Nat.one_lt_two).mp hPow
  rw [normalize, hS, Nat.and_two_pow_sub_one_eq_mod, Nat.mod_mod_of_dvd _ (Nat.pow_dvd_pow 2 hm)]

/-- The slot `d` before the tail. -/
theorem normalizeBackward_eq (hSmall : S ≤ 2 ^ 15) (hTail : tail < S) (hd : d < S) :
    normalizeBackward S tail d = (tail + S - d) % S := by
  unfold normalizeBackward
  by_cases hle : d ≤ tail
  · rw [if_pos hle, show tail + S - d = tail - d + S by omega, Nat.add_mod_right,
      Nat.mod_eq_of_lt (by omega)]
  · rw [if_neg hle, Nat.mod_eq_of_lt (b := S) (by omega)]
    omega

theorem next_back (hd : d < S) :
    ((tail + S - d) % S + 1) % S = ((tail + 1) % S + S - d) % S := by
  rw [Nat.mod_add_mod, Nat.add_sub_assoc (Nat.le_of_lt hd) ((tail + 1) % S), Nat.mod_add_mod,
    show tail + S - d + 1 = tail + 1 + (S - d) by omega]

/-- A size that is a power of two and does not fit into 16 bits is 0 in 16 bits. -/
theorem mod_of_large (hS : S = 2 ^ m) (hLarge : 2 ^ 15 < S) : S % 2 ^ 16 = 0 := by
  have hm : 16 ≤ m := by
    rw [hS] at hLarge
    exact (Nat.pow_lt_pow_iff_right Nat.one_lt_two).mp hLarge
  rw [hS]
  exact Nat.mod_eq_zero_of_dvd (Nat.pow_dvd_pow 2 hm)

end Indices

/-! ## The buffer of a channel -/

section Channel

/-- The buffer as a channel of `taskBufferSize` slots has it: of what is to be prefetched, it keeps
the task only. -/
def TaskBuffer.toChannel (b : TaskBuffer T R) : Tasking.TaskBuffer T :=
  ⟨b.prefetchDistance, b.head, b.tail, b.tasks, fun i => (b.prefetchSlots i).task⟩

variable {b : TaskBuffer T R} {s : State T R}

theorem toChannel_update (slots : Nat → PrefetchSlot T R) (i : Nat) (slot : PrefetchSlot T R) :
    (fun j => (Function.update slots i slot j).task) =
      Function.update (fun j => (slots j).task) i slot.task := by
  funext j
  by_cases hEq : j = i
  · subst hEq
    rw [Function.update_self, Function.update_self]
  · rw [Function.update_of_ne hEq, Function.update_of_ne hEq]

theorem toChannel_normalize (index : Nat) :
    Tasking.TaskBuffer.normalize index = normalize taskBufferSize index := by
  rw [Tasking.TaskBuffer.normalize_eq,
    normalize_eq (show taskBufferSize = 2 ^ 6 from rfl) (by decide)]

/-- The distance has 8 bits in a channel. -/
theorem toChannel_normalizeBackward {index offset : Nat} (hOffset : offset < 2 ^ 16) :
    Tasking.TaskBuffer.normalizeBackward index offset =
      normalizeBackward taskBufferSize index offset := by
  unfold Tasking.TaskBuffer.normalizeBackward normalizeBackward taskBufferSize
  split
  · rfl
  · omega

theorem toChannel_availableSlots (hHead : b.head < taskBufferSize)
    (hTail : b.tail < taskBufferSize) :
    b.toChannel.availableSlots = b.availableSlots taskBufferSize := by
  have hHead64 : b.head < 64 := hHead
  have hTail64 : b.tail < 64 := hTail
  show 64 - (if b.head ≤ b.tail then b.tail - b.head else 64 - (b.head - b.tail)) =
    (64 + 2 ^ 16 - (if b.head ≤ b.tail then b.tail - b.head else 64 - (b.head - b.tail)) % 2 ^ 16) %
      2 ^ 16
  split <;> omega

/-- `next()` is the one of the channel. -/
theorem toChannel_next (s : State T R) :
    s.buffer.toChannel.next =
      ((s.next taskBufferSize).buffer.toChannel, s.buffer.tasks s.buffer.head) := by
  cases hTask : s.buffer.tasks s.buffer.head with
  | none => simp only [Tasking.TaskBuffer.next, State.next, TaskBuffer.toChannel, hTask]
  | some task =>
      simp only [Tasking.TaskBuffer.next, State.next, TaskBuffer.toChannel, hTask,
        toChannel_update, toChannel_normalize]

/-- So is a round of `fill`. -/
theorem toChannel_put (s : State T R) (annotated : T → Option (Option R)) (task : T)
    (size i prefetchTail : Nat) :
    (s.put taskBufferSize annotated task size i prefetchTail).buffer.toChannel =
      s.buffer.toChannel.put task size i prefetchTail := by
  unfold Tasking.TaskBuffer.put State.put TaskBuffer.toChannel
  simp only [toChannel_normalize]
  split <;> simp only [toChannel_update, PrefetchSlot.assign]

variable {U : Type*} {caller : Caller} {priority : Priority} {index available : Nat}

/-- The rounds of the worker in `TaskBuffer::fill`, when nothing is pushed meanwhile. -/
theorem turns_fillLoop (annotated : Spawned U → Option (Option R)) (rounds : Nat) :
    ∀ (i prefetchTail : Nat) (queue : List (Spawned U)) (channel : Tasking.State U)
      (s : State (Spawned U) R), rounds + i = available →
      channel.control = .pop caller priority index available i prefetchTail →
      channel.queues (channel.queueAt priority index) = queue →
      channel.buffer = s.buffer.toChannel →
      ∃ channel', Turns channel channel' ∧
        channel'.control = .fill caller priority (index + 1) (available -
          (s.fillLoop taskBufferSize annotated (taskBufferSize - available) rounds i prefetchTail
            queue).2) ∧
        channel'.buffer = (s.fillLoop taskBufferSize annotated (taskBufferSize - available) rounds i
          prefetchTail queue).1.buffer.toChannel := by
  induction rounds with
  | zero =>
      intro i prefetchTail queue channel s hRounds hControl hQueue hBuffer
      have hNot : channel.control ≠ .executing := by rw [hControl]; nofun
      obtain rfl : i = available := by omega
      exact ⟨_, .head hNot (.count hControl (lt_irrefl i)) rfl (.refl _), rfl, hBuffer⟩
  | succ rounds ih =>
      intro i prefetchTail queue channel s hRounds hControl hQueue hBuffer
      have hNot : channel.control ≠ .executing := by rw [hControl]; nofun
      cases queue with
      | nil => exact ⟨_, .head hNot (.null hControl (by omega)) rfl (.refl _), rfl, hBuffer⟩
      | cons task queue =>
          obtain ⟨next, hStep, hReturned, hNextControl, hNextQueue, hNextBuffer⟩ :
              ∃ next, Tasking.Step channel .worker next ∧ next.returned = channel.returned ∧
                next.control = .pop caller priority index available (i + 1)
                  (normalize taskBufferSize (prefetchTail + 1)) ∧
                next.queues (next.queueAt priority index) = queue ∧
                next.buffer = (s.put taskBufferSize annotated task (taskBufferSize - available) i
                  prefetchTail).buffer.toChannel := by
            refine ⟨_, .put hControl (by omega) hQueue, rfl, ?_, Function.update_self .., ?_⟩
            · rw [toChannel_normalize]
            · rw [toChannel_put, hBuffer]
          obtain ⟨channel', hTurns, hEnd, hFilled⟩ :=
            ih (i + 1) _ queue next _ (by omega) hNextControl hNextQueue hNextBuffer
          exact ⟨channel', .head hNot hStep hReturned hTurns, hEnd, hFilled⟩

/-- What a channel takes from a queue is what `takeFrom` takes, with the prefetches noted. -/
theorem turns_takeFrom (annotated : Spawned U → Option (Option R)) {channel : Tasking.State U}
    {s : State (Spawned U) R} (hControl : channel.control = .fill caller priority index available)
    (hEnds : fillEnds index available = false) (hAvailable : available ≤ taskBufferSize)
    (hDistance : s.buffer.prefetchDistance < 2 ^ 16)
    (hBuffer : channel.buffer = s.buffer.toChannel) :
    ∃ channel', Turns channel channel' ∧
      channel'.control = .fill caller priority (index + 1) (State.takeFrom taskBufferSize annotated
        (channel.queues (channel.queueAt priority index)) (s, available)).2 ∧
      channel'.buffer = (State.takeFrom taskBufferSize annotated
        (channel.queues (channel.queueAt priority index)) (s, available)).1.buffer.toChannel := by
  have hNot : channel.control ≠ .executing := by rw [hControl]; nofun
  unfold State.takeFrom State.fillFrom
  by_cases hNothing : available = 0 ∨ channel.queues (channel.queueAt priority index) = []
  · simp only [if_pos hNothing]
    exact ⟨_, .head hNot (.skip hControl hEnds hNothing) rfl (.refl _), rfl, hBuffer⟩
  · simp only [if_neg hNothing]
    rw [not_or] at hNothing
    have hSize : (taskBufferSize + 2 ^ 64 - available) % 2 ^ 64 = taskBufferSize - available := by
      have hPos : 0 < available := Nat.pos_of_ne_zero hNothing.1
      unfold taskBufferSize at *
      omega
    rw [hSize]
    obtain ⟨channel', hTurns, hEnd, hFilled⟩ := turns_fillLoop annotated available 0
      (normalizeBackward taskBufferSize s.buffer.tail s.buffer.prefetchDistance) _
      { channel with control := .pop caller priority index available 0 _ } s (Nat.add_zero _)
      rfl rfl hBuffer
    have hEnter := Step.enter hControl hEnds hNothing.1 hNothing.2
    rw [hBuffer, show s.buffer.toChannel.tail = s.buffer.tail from rfl,
      show s.buffer.toChannel.prefetchDistance = s.buffer.prefetchDistance from rfl,
      toChannel_normalizeBackward hDistance, ← hBuffer] at hEnter
    exact ⟨channel', .head hNot hEnter rfl hTurns, hEnd, hFilled⟩

end Channel

/-! ## The invariant -/

namespace State

/-- The tasks in the buffer, as the records have them. -/
def waiting (s : State T R) : List T := (s.placements.map Placement.task).drop s.returned

/-- What a placement with number `i` found. -/
structure PlacementOk (S d returned : Nat) (placements : List (Placement T R)) (i : Nat)
    (p : Placement T R) : Prop where
  counts : p.returned + p.occupied = i
  returned_le : p.returned ≤ returned
  slot : p.slot = i % S
  overwritten : p.overwritten = none
  attached : d ≤ p.occupied → p.attachedTo = some ((i - d) % S) ∧
    p.holder = placements[i - d]?.map Placement.task ∧ p.pending = ⟨none, none⟩
  not_attached : p.occupied < d → p.attachedTo = none

/-- What a call with a prefetch has to do with the rest: up to `d` calls later all calls returned
tasks. -/
structure CallOk (d : Nat) (annotated : T → Option (Option R)) (s : State T R) (c : Nat)
    (call : Call T R) : Prop where
  task : ∃ p, s.placements[call.number + d]? = some p ∧ d ≤ p.occupied ∧
    call.issued = prefetchOf annotated (some p.task)
  pace : s.calls.length ≤ c + d + 1 → s.returned = call.number + (s.calls.length - c)
  later : ∀ later, s.calls[c + d]? = some later → later.number = call.number + d ∧
    later.result = s.placements[call.number + d]?.map Placement.task

structure Inv (S d : Nat) (annotated : T → Option (Option R)) (s : State T R) : Prop where
  distance : s.buffer.prefetchDistance = d
  small : s.placements ≠ [] → S ≤ 2 ^ 15
  returned_le : s.returned ≤ s.placements.length
  head : s.buffer.head = s.returned % S
  ring : IsRing S s.buffer.tasks s.buffer.head s.buffer.tail s.waiting
  ahead : Ahead S d s.buffer.prefetchSlots s.buffer.head (prefetchOf annotated) s.waiting
  placement : ∀ i p, s.placements[i]? = some p → PlacementOk S d s.returned s.placements i p
  result : ∀ call ∈ s.calls, call.result ≠ none → call.number < s.returned ∧
    call.result = s.placements[call.number]?.map Placement.task
  issued_by : ∀ i p, s.placements[i]? = some p → d ≤ p.occupied → ∀ call ∈ s.calls,
    call.result ≠ none → call.number + d = i → call.issued = prefetchOf annotated (some p.task)
  call : ∀ c call, s.calls[c]? = some call → call.issued ≠ ⟨none, none⟩ →
    CallOk d annotated s c call

namespace Inv

variable {S d m : Nat} {annotated : T → Option (Option R)} {s : State T R}

theorem initial (hS : 0 < S) : (initial d : State T R).Inv S d annotated where
  distance := rfl
  small h := absurd rfl h
  returned_le := Nat.le_refl 0
  head := (Nat.zero_mod S).symm
  ring := IsRing.empty hS
  ahead := fun _ _ => rfl
  placement := by simp [State.initial]
  result := by simp [State.initial]
  issued_by := by simp [State.initial]
  call := by simp [State.initial]

theorem waiting_length (h : s.Inv S d annotated) :
    s.waiting.length + s.returned = s.placements.length := by
  have hLe := h.returned_le
  rw [waiting, List.length_drop, List.length_map]
  omega

theorem tail (h : s.Inv S d annotated) : s.buffer.tail = s.placements.length % S := by
  rw [h.ring.tail_eq, h.head, Nat.mod_add_mod, Nat.add_comm, h.waiting_length]

end Inv

theorem waiting_getElem? (s : State T R) (j : Nat) :
    s.waiting[j]? = s.placements[s.returned + j]?.map Placement.task := by
  rw [waiting, List.getElem?_drop, List.getElem?_map]

theorem getElem?_snoc {α : Type*} {l : List α} {a b : α} {i : Nat} (h : l[i]? = some a) :
    (l ++ [b])[i]? = some a := by
  rw [List.getElem?_append_left (List.getElem?_eq_some_iff.mp h).1]
  exact h

/-- An entry of a list with one more at the end. -/
theorem getElem?_snoc_cases {α : Type*} {l : List α} {a b : α} {i : Nat}
    (h : (l ++ [b])[i]? = some a) : l[i]? = some a ∨ i = l.length ∧ a = b := by
  rcases Nat.lt_or_ge i l.length with hlt | hge
  · rw [List.getElem?_append_left hlt] at h
    exact Or.inl h
  · rw [List.getElem?_append_right hge] at h
    have hZero := (List.getElem?_eq_some_iff.mp h).1
    rw [List.length_singleton] at hZero
    have hi : i = l.length := by omega
    rw [hi, Nat.sub_self] at h
    exact Or.inr ⟨hi, (Option.some.inj h).symm⟩

/-- The records of earlier placements stay true. -/
theorem PlacementOk.snoc {S d returned : Nat} {placements : List (Placement T R)} {i : Nat}
    {p new : Placement T R} (h : PlacementOk S d returned placements i p)
    (hi : i < placements.length) : PlacementOk S d returned (placements ++ [new]) i p := by
  refine ⟨h.counts, h.returned_le, h.slot, h.overwritten, fun hd => ?_, h.not_attached⟩
  rw [List.getElem?_append_left (by omega)]
  exact h.attached hd

namespace Inv

variable {S d m : Nat} {annotated : T → Option (Option R)} {s : State T R}
  {size i prefetchTail : Nat}

theorem put_waiting (h : s.Inv S d annotated) (task : T) :
    (s.put S annotated task size i prefetchTail).waiting = s.waiting ++ [task] := by
  unfold waiting put
  dsimp only
  rw [List.map_append, List.drop_append_of_le_length (by rw [List.length_map]; exact h.returned_le)]
  rfl

/-- What the new placement finds. -/
theorem put_placement (h : s.Inv S d annotated) (task : T) (hPos : 0 < d)
    (hCount : size + i = s.waiting.length) (hRoom : s.waiting.length < S)
    (hTail : prefetchTail = (s.buffer.tail + S - d) % S) :
    PlacementOk S d s.returned s.placements s.placements.length
      { task := task
        returned := s.returned
        occupied := occupied S s.buffer.tasks
        slot := s.buffer.tail
        overwritten := s.buffer.tasks s.buffer.tail
        attachedTo := if 0 < s.buffer.prefetchDistance ∧ s.buffer.prefetchDistance ≤ size + i then
          some prefetchTail else none
        holder := s.buffer.tasks prefetchTail
        pending := s.buffer.prefetchSlots prefetchTail } := by
  have hLength := h.waiting_length
  have hOccupied := h.ring.occupied_eq
  refine ⟨by simp only; omega, Nat.le_refl _, h.tail, h.ring.slot_tail hRoom, fun hd => ?_,
    fun hd => ?_⟩
  · have hd' : d ≤ s.waiting.length := by simp only at hd; omega
    have hBack : prefetchTail = (s.placements.length - d) % S := by
      rw [hTail, h.ring.back_eq hd', h.head, Nat.mod_add_mod]
      congr 1
      omega
    refine ⟨?_, ?_, ?_⟩
    · rw [h.distance, if_pos ⟨hPos, by omega⟩, hBack]
    · show s.buffer.tasks prefetchTail = _
      rw [hTail, h.ring.slot_back hd' hPos, waiting_getElem?]
      congr 2
      omega
    · show s.buffer.prefetchSlots prefetchTail = _
      rw [hTail, h.ahead.back h.ring hd' hPos]
      rfl
  · simp only at hd
    rw [h.distance, if_neg (by omega)]

/-- A task is put into the buffer. -/
theorem put (h : s.Inv S d annotated) (hS : S = 2 ^ m) (hSmall : S ≤ 2 ^ 15) (hPos : 0 < d)
    (hCount : size + i = s.waiting.length) (hRoom : s.waiting.length < S)
    (hTail : prefetchTail = (s.buffer.tail + S - d) % S) (task : T) :
    (s.put S annotated task size i prefetchTail).Inv S d annotated := by
  have hLength := h.waiting_length
  refine ⟨h.distance, fun _ => hSmall, ?_, h.head, ?_, ?_, ?_, ?_, ?_, ?_⟩
  · show s.returned ≤ (s.placements ++ _).length
    rw [List.length_append]
    exact Nat.le_add_right_of_le h.returned_le
  · rw [h.put_waiting task]
    show IsRing S _ _ (normalize S (s.buffer.tail + 1)) _
    rw [normalize_eq hS hSmall]
    exact h.ring.pushBack hRoom task
  · rw [h.put_waiting task]
    show Ahead S d (if 0 < s.buffer.prefetchDistance ∧ s.buffer.prefetchDistance ≤ size + i then
      _ else _) _ _ _
    rw [h.distance]
    by_cases hd : d ≤ s.waiting.length
    · rw [if_pos ⟨hPos, by omega⟩]
      have hAssign : (s.buffer.prefetchSlots prefetchTail).assign annotated task =
          prefetchOf annotated (some task) := by
        rw [hTail, h.ahead.back h.ring hd hPos]
        simp only [PrefetchSlot.assign, prefetchOf]
        cases annotated task <;> rfl
      rw [hAssign, hTail]
      exact h.ahead.pushBack h.ring hd hPos task
    · rw [if_neg (by omega)]
      exact h.ahead.pushBack_short (not_le.mp hd) task
  · intro j p hp
    rcases getElem?_snoc_cases hp with hOld | ⟨rfl, rfl⟩
    · exact (h.placement j p hOld).snoc (List.getElem?_eq_some_iff.mp hOld).1
    · have hNew := h.put_placement task hPos hCount hRoom hTail
      refine ⟨hNew.counts, hNew.returned_le, hNew.slot, hNew.overwritten, fun hd => ?_,
        hNew.not_attached⟩
      have hOccupied := h.ring.occupied_eq
      have hIndex : s.placements.length - d < s.placements.length := by
        simp only at hd
        omega
      show _ ∧ _ = Option.map _ (s.placements ++ _)[_]? ∧ _
      rw [List.getElem?_append_left hIndex]
      exact hNew.attached hd
  · intro call hCall hSome
    obtain ⟨hlt, hResult⟩ := h.result call hCall hSome
    refine ⟨hlt, ?_⟩
    show _ = Option.map _ (s.placements ++ _)[_]?
    rw [List.getElem?_append_left (by omega)]
    exact hResult
  · intro j p hp hd call hCall hSome hNumber
    rcases getElem?_snoc_cases hp with hOld | ⟨rfl, rfl⟩
    · exact h.issued_by j p hOld hd call hCall hSome hNumber
    · -- the call that returned the earlier task is still to come
      have hNew := (h.put_placement task hPos hCount hRoom hTail).counts
      have hlt := (h.result call hCall hSome).1
      simp only at hd hNew
      omega
  · intro c call hCall hIssued
    have hOk := h.call c call hCall hIssued
    obtain ⟨p, hp, hd, hTask⟩ := hOk.task
    refine ⟨⟨p, getElem?_snoc hp, hd, hTask⟩, hOk.pace, fun later hLater => ?_⟩
    show _ ∧ _ = Option.map _ (s.placements ++ _)[_]?
    rw [List.getElem?_append_left (List.getElem?_eq_some_iff.mp hp).1]
    exact hOk.later later hLater

/-- While the task of a prefetch is still to be returned, the buffer is not empty. -/
theorem waiting_ne_nil {c : Nat} {call : Call T R} (h : s.Inv S d annotated)
    (hOk : CallOk d annotated s c call) (hc : c < s.calls.length)
    (hSoon : s.calls.length ≤ c + d) : s.waiting ≠ [] := by
  intro hNil
  obtain ⟨p, hp, -, -⟩ := hOk.task
  have hlt := (List.getElem?_eq_some_iff.mp hp).1
  have hLength := h.waiting_length
  rw [hNil, List.length_nil, Nat.zero_add] at hLength
  have hPace := hOk.pace (by omega)
  omega

/-- `next()` on an empty buffer. -/
theorem next_empty (h : s.Inv S d annotated)
    (hNone : s.buffer.tasks s.buffer.head = none) :
    ({ s with calls := s.calls ++ [⟨s.returned, none, ⟨none, none⟩⟩] } : State T R).Inv S d
      annotated := by
  have hNil : s.waiting = [] := h.ring.eq_nil_iff.mp hNone
  refine ⟨h.distance, h.small, h.returned_le, h.head, h.ring, h.ahead, h.placement, ?_, ?_, ?_⟩
  · intro call hCall hSome
    rcases List.mem_append.mp hCall with hOld | hNew
    · exact h.result call hOld hSome
    · rw [List.mem_singleton.mp hNew] at hSome
      exact absurd rfl hSome
  · intro j p hp hd call hCall hSome
    rcases List.mem_append.mp hCall with hOld | hNew
    · exact h.issued_by j p hp hd call hOld hSome
    · rw [List.mem_singleton.mp hNew] at hSome
      exact absurd rfl hSome
  · intro c call hCall hIssued
    rcases getElem?_snoc_cases hCall with hOld | ⟨-, rfl⟩
    · have hOk := h.call c call hOld hIssued
      have hc := (List.getElem?_eq_some_iff.mp hOld).1
      refine ⟨hOk.task, fun hSoon => ?_, fun later hLater => ?_⟩
      · simp only [List.length_append, List.length_singleton] at hSoon
        exact absurd hNil (h.waiting_ne_nil hOk hc (by omega))
      · rcases getElem?_snoc_cases hLater with hLater | ⟨hEq, -⟩
        · exact hOk.later later hLater
        · exact absurd hNil (h.waiting_ne_nil hOk hc (by omega))
    · exact absurd rfl hIssued

/-- What the head slot has noted. -/
theorem issued_eq (h : s.Inv S d annotated) : s.buffer.prefetchSlots s.buffer.head =
    prefetchOf annotated (s.placements[s.returned + d]?.map Placement.task) := by
  have hAhead := h.ahead 0 h.ring.pos
  rwa [Nat.add_zero, Nat.mod_eq_of_lt h.ring.head_lt, Nat.zero_add, waiting_getElem?] at hAhead

/-- The head slot holds the first task that has not been returned. -/
theorem first_eq (h : s.Inv S d annotated) :
    s.buffer.tasks s.buffer.head = s.placements[s.returned]?.map Placement.task := by
  rw [h.ring.slot_head, List.head?_eq_getElem?, waiting_getElem?, Nat.add_zero]

/-- The call that returns the first task of the buffer. -/
theorem next_call (h : s.Inv S d annotated) (hPos : 0 < d) {task : T}
    (hTask : s.buffer.tasks s.buffer.head = some task) :
    ∀ c call, (s.next S).calls[c]? = some call → call.issued ≠ ⟨none, none⟩ →
      CallOk d annotated (s.next S) c call := by
  have hNext : s.next S = { s with
      buffer := (s.next S).buffer
      returned := s.returned + 1
      calls := s.calls ++ [⟨s.returned, some task, s.buffer.prefetchSlots s.buffer.head⟩] } := by
    simp only [next, hTask]
  have hFirst : some task = s.placements[s.returned]?.map Placement.task :=
    hTask.symm.trans h.first_eq
  rw [hNext]
  intro c call hCall hIssued
  rcases getElem?_snoc_cases hCall with hOld | ⟨rfl, rfl⟩
  · have hOk := h.call c call hOld hIssued
    have hc := (List.getElem?_eq_some_iff.mp hOld).1
    refine ⟨hOk.task, fun hSoon => ?_, fun later hLater => ?_⟩
    · simp only [List.length_append, List.length_singleton] at hSoon ⊢
      have hPace := hOk.pace (by omega)
      omega
    · rcases getElem?_snoc_cases hLater with hLater | ⟨hEq, rfl⟩
      · exact hOk.later later hLater
      · have hPace := hOk.pace (by omega)
        have hNumber : s.returned = call.number + d := by omega
        refine ⟨hNumber, ?_⟩
        show some task = _
        rw [hFirst, hNumber]
  · simp only [h.issued_eq] at hIssued
    cases hp : s.placements[s.returned + d]? with
    | none =>
        rw [hp] at hIssued
        exact absurd rfl hIssued
    | some p =>
        have hPlacement := h.placement _ p hp
        have hCounts := hPlacement.counts
        have hReturned := hPlacement.returned_le
        refine ⟨⟨p, hp, by omega, ?_⟩, fun _ => ?_, fun later hLater => ?_⟩
        · show s.buffer.prefetchSlots s.buffer.head = _
          rw [h.issued_eq, hp]
          rfl
        · simp
        · have hlt := (List.getElem?_eq_some_iff.mp hLater).1
          simp only [List.length_append, List.length_singleton] at hlt
          omega

/-- `next()`. -/
theorem next (h : s.Inv S d annotated) (hS : S = 2 ^ m) (hPos : 0 < d) :
    (s.next S).Inv S d annotated := by
  cases hTask : s.buffer.tasks s.buffer.head with
  | none =>
      have hNext : s.next S =
          { s with calls := s.calls ++ [⟨s.returned, none, ⟨none, none⟩⟩] } := by
        simp only [State.next, hTask]
      rw [hNext]
      exact h.next_empty hTask
  | some task =>
      have hCalls := h.next_call hPos hTask
      have hFirst : some task = s.placements[s.returned]?.map Placement.task :=
        hTask.symm.trans h.first_eq
      have hLt : s.returned < s.placements.length := by
        by_contra hge
        rw [List.getElem?_eq_none (by omega)] at hFirst
        cases hFirst
      have hSmall : S ≤ 2 ^ 15 := h.small (List.ne_nil_of_length_pos (by omega))
      have hWaiting : s.waiting = task ::
          (s.placements.map Placement.task).drop (s.returned + 1) := by
        have hHead := h.ring.slot_head
        rw [hTask] at hHead
        have hDrop : s.waiting.tail = (s.placements.map Placement.task).drop (s.returned + 1) := by
          rw [waiting, List.tail_drop]
        rw [← hDrop]
        exact List.eq_cons_of_mem_head? hHead.symm
      have hRing := h.ring
      have hAhead := h.ahead
      rw [hWaiting] at hRing hAhead
      have hPop := hRing.popFront
      have hShift := hAhead.popFront hRing
      simp only [State.next, hTask] at hCalls ⊢
      refine ⟨h.distance, h.small, hLt, ?_, ?_, ?_, ?_, ?_, ?_, hCalls⟩
      · show normalize S (s.buffer.head + 1) = (s.returned + 1) % S
        rw [normalize_eq hS hSmall, h.head, Nat.mod_add_mod]
      · show IsRing S _ (normalize S (s.buffer.head + 1)) _ _
        rw [normalize_eq hS hSmall]
        exact hPop
      · show Ahead S d _ (normalize S (s.buffer.head + 1)) _ _
        rw [normalize_eq hS hSmall]
        exact hShift
      · intro j p hp
        have hOk := h.placement j p hp
        exact ⟨hOk.counts, Nat.le_succ_of_le hOk.returned_le, hOk.slot, hOk.overwritten,
          hOk.attached, hOk.not_attached⟩
      · intro call hCall hSome
        rcases List.mem_append.mp hCall with hOld | hNew
        · obtain ⟨hNumber, hResult⟩ := h.result call hOld hSome
          exact ⟨Nat.lt_succ_of_lt hNumber, hResult⟩
        · rw [List.mem_singleton.mp hNew]
          exact ⟨Nat.lt_succ_self _, hFirst⟩
      · intro j p hp hd call hCall hSome hNumber
        rcases List.mem_append.mp hCall with hOld | hNew
        · exact h.issued_by j p hp hd call hOld hSome hNumber
        · rw [List.mem_singleton.mp hNew] at hNumber ⊢
          show s.buffer.prefetchSlots s.buffer.head = _
          rw [h.issued_eq, hNumber, hp]
          rfl

/-! ## Filling the buffer -/

section Fill

variable (hS : S = 2 ^ m) (hPos : 0 < d) (hd : d < S)

include hS hPos hd in
/-- The loop of `TaskBuffer::fill`, as long as there is a free slot for every round. -/
theorem fillLoop (rounds : Nat) (queue : List T) (h : s.Inv S d annotated) (hSmall : S ≤ 2 ^ 15)
    (hCount : size + i = s.waiting.length) (hRoom : rounds + s.waiting.length ≤ S)
    (hTail : prefetchTail = (s.buffer.tail + S - d) % S) :
    (s.fillLoop S annotated size rounds i prefetchTail queue).1.Inv S d annotated ∧
    (s.fillLoop S annotated size rounds i prefetchTail queue).2 + s.waiting.length =
      (s.fillLoop S annotated size rounds i prefetchTail queue).1.waiting.length + i := by
  induction rounds generalizing i prefetchTail queue s with
  | zero => exact ⟨h, Nat.add_comm ..⟩
  | succ rounds ih =>
      cases queue with
      | nil => exact ⟨h, Nat.add_comm ..⟩
      | cons task queue =>
          have hWaiting : (s.put S annotated task size i prefetchTail).waiting =
              s.waiting ++ [task] := h.put_waiting task
          have hPut := h.put hS hSmall hPos hCount (by omega) hTail task
          have hNext : normalize S (prefetchTail + 1) =
              (normalize S (s.buffer.tail + 1) + S - d) % S := by
            rw [normalize_eq hS hSmall, normalize_eq hS hSmall, hTail, next_back hd]
          have hRest := ih (i := i + 1) queue hPut
            (by rw [hWaiting, List.length_append, List.length_singleton]; omega)
            (by rw [hWaiting, List.length_append, List.length_singleton]; omega) hNext
          refine ⟨hRest.1, ?_⟩
          have hResult := hRest.2
          rw [hWaiting, List.length_append, List.length_singleton] at hResult
          simp only [State.fillLoop]
          omega

/-- The buffer and what `fill` takes to be the number of its free slots. -/
def Room (S d : Nat) (annotated : T → Option (Option R)) (r : State T R × Nat) : Prop :=
  r.1.Inv S d annotated ∧ (r.2 = 0 ∨ S ≤ 2 ^ 15 ∧ r.2 + r.1.waiting.length = S)

include hS hPos hd in
theorem takeFrom {r : State T R × Nat} (h : Room S d annotated r) (queue : List T) :
    Room S d annotated (takeFrom S annotated queue r) := by
  obtain ⟨s, available⟩ := r
  have hInv : s.Inv S d annotated := h.1
  have hRoom : available = 0 ∨ S ≤ 2 ^ 15 ∧ available + s.waiting.length = S := h.2
  unfold State.takeFrom fillFrom
  by_cases hNothing : available = 0 ∨ queue = []
  · simp only [if_pos hNothing, Nat.sub_zero]
    exact ⟨hInv, hRoom⟩
  · simp only [if_neg hNothing]
    rcases hRoom with hZero | ⟨hSmall, hRoom⟩
    · exact absurd (Or.inl hZero) hNothing
    · have hSize : (S + 2 ^ 64 - available) % 2 ^ 64 + 0 = s.waiting.length := by
        have hAvailable : available ≠ 0 := fun hZero => hNothing (Or.inl hZero)
        omega
      have hTail : normalizeBackward S s.buffer.tail s.buffer.prefetchDistance =
          (s.buffer.tail + S - d) % S := by
        rw [hInv.distance, normalizeBackward_eq hSmall hInv.ring.tail_lt hd]
      obtain ⟨hFilled, hNumber⟩ := fillLoop hS hPos hd available queue hInv hSmall hSize (by omega)
        hTail
      have hLength := hFilled.ring.length_le
      refine ⟨hFilled, Or.inr ⟨hSmall, ?_⟩⟩
      simp only
      omega

include hS hPos hd in
theorem fillPriority {available : Nat} (h : Room S d annotated (s, available)) (offer : Offer T) :
    Room S d annotated (s.fillPriority S annotated offer available) := by
  have hLocal := takeFrom hS hPos hd h offer.localQueue
  unfold State.fillPriority
  simp only
  split
  · exact List.foldlRecOn _ _ hLocal fun r hr i _ => takeFrom hS hPos hd hr (offer.remoteQueues i)
  · exact hLocal

include hS in
/-- `available_slots()` on a buffer that is not full. -/
theorem room (h : s.Inv S d annotated) (hRoom : occupied S s.buffer.tasks < S) :
    Room S d annotated (s, s.buffer.availableSlots S) := by
  rw [h.ring.occupied_eq] at hRoom
  have hDistance := h.ring.distance hRoom
  refine ⟨h, ?_⟩
  simp only [TaskBuffer.availableSlots, TaskBuffer.size, hDistance]
  rcases Nat.lt_or_ge (2 ^ 15) S with hLarge | hSmall
  · have hMod := mod_of_large hS hLarge
    have hNone : s.placements = [] := by
      by_contra hSome
      have hLe := h.small hSome
      omega
    have hLength := h.waiting_length
    rw [hNone, List.length_nil] at hLength
    refine Or.inl ?_
    omega
  · refine Or.inr ⟨hSmall, ?_⟩
    omega

include hS hPos hd in
/-- The second half of `Channel::fill()`. -/
theorem fillLow {r : State T R × Nat} (h : Room S d annotated r) (low : Offer T) :
    (if r.1.buffer.empty then (r.1.fillPriority S annotated low (S % 2 ^ 16)).1 else r.1).Inv S d
      annotated := by
  by_cases hEmpty : r.1.buffer.empty = true
  · have hNil : r.1.waiting = [] :=
      h.1.ring.eq_nil_iff.mp (Option.isNone_iff_eq_none.mp hEmpty)
    have hLow : Room S d annotated (r.1, S % 2 ^ 16) := by
      refine ⟨h.1, ?_⟩
      simp only [hNil, List.length_nil]
      rcases Nat.lt_or_ge (2 ^ 15) S with hLarge | hSmall
      · exact Or.inl (mod_of_large hS hLarge)
      · exact Or.inr ⟨hSmall, Nat.mod_eq_of_lt (by omega)⟩
    rw [if_pos hEmpty]
    exact (fillPriority hS hPos hd hLow low).1
  · rw [if_neg hEmpty]
    exact h.1

include hS hPos hd in
/-- `Channel::fill()` on a buffer that is not full. -/
theorem fill (h : s.Inv S d annotated) (hRoom : occupied S s.buffer.tasks < S)
    (normal low : Offer T) : (s.fill S annotated normal low).Inv S d annotated := by
  unfold State.fill
  exact fillLow hS hPos hd (fillPriority hS hPos hd (h.room hS hRoom) normal) low

end Fill

theorem prefetched (h : s.Inv S d annotated) : Prefetched S d annotated s where
  head_lt := h.ring.head_lt
  tail_lt := h.ring.tail_lt
  slot := by
    intro p hp
    obtain ⟨j, hj⟩ := List.getElem?_of_mem hp
    have hOk := h.placement j p hj
    refine ⟨?_, hOk.overwritten⟩
    rw [hOk.slot]
    exact Nat.mod_lt _ h.ring.pos
  attached := by
    intro j p hp hd
    have hOk := h.placement j p hp
    obtain ⟨hTo, hHolder, hPending⟩ := hOk.attached hd
    have hCounts := hOk.counts
    have hj := (List.getElem?_eq_some_iff.mp hp).1
    obtain ⟨earlier, hEarlier⟩ : ∃ earlier, s.placements[j - d]? = some earlier :=
      ⟨_, List.getElem?_eq_getElem (by omega)⟩
    have hSlot := (h.placement _ _ hEarlier).slot
    refine ⟨earlier, by omega, hEarlier, ?_, ?_, ?_, hPending⟩
    · rw [hTo, hSlot]
    · rw [hSlot]
      exact Nat.mod_lt _ h.ring.pos
    · rw [hHolder, hEarlier]
      rfl
  not_attached := by
    intro p hp hd
    obtain ⟨j, hj⟩ := List.getElem?_of_mem hp
    exact (h.placement j p hj).not_attached hd
  result := fun call hCall hSome => (h.result call hCall hSome).2
  issued_by := h.issued_by
  issued_for := by
    intro c call hCall hIssued
    have hOk := h.call c call hCall hIssued
    obtain ⟨p, hp, hd, hTask⟩ := hOk.task
    refine ⟨p, hp, hd, hTask, fun later hLater => ?_⟩
    obtain ⟨hNumber, hResult⟩ := hOk.later later hLater
    rw [hp] at hResult
    exact ⟨hNumber, hResult⟩

end Inv

end State

/-! ## Every run -/

/-- In every run in which no full buffer is filled, the prefetches are attached and
issued at the prefetch distance. -/
theorem prefetched_of_run {S m d : Nat} {annotated : T → Option (Option R)} {es : List (Event T)}
    {s : State T R} (hS : S = 2 ^ m) (hPos : 0 < d) (hd : d < S)
    (hRun : Run (Guarded (Step S annotated) (HasRoom S)) (State.initial d) es s) :
    Prefetched S d annotated s := by
  have hInv : s.Inv S d annotated := by
    refine hRun.invariant (P := fun s => s.Inv S d annotated) (State.Inv.initial (by omega)) ?_
    rintro ev mid fin hMid ⟨hRoom, hStep⟩
    cases hStep with
    | next => exact hMid.next hS hPos
    | fill normal low => exact hMid.fill hS hPos hd hRoom normal low
  exact hInv.prefetched

/-- Queues that hand out the given tasks, all from the local queue. -/
def Offer.ofLocal (tasks : List T) : Offer T := ⟨tasks, fun _ => []⟩

/-- Three tasks; the first call of `next()` prefetches the third one. -/
theorem prefetched_of_run_three : ∃ s : State Nat Nat,
    Run (Guarded (Step 4 fun task => some (some (10 * task))) (HasRoom 4)) (State.initial 2)
      [.fill (.ofLocal [1, 2, 3]) (.ofLocal []), .next] s ∧
    Prefetched 4 2 (fun task => some (some (10 * task))) s ∧
    s.calls.map Call.issued = [⟨some 3, some 30⟩] := by
  have hFill : Guarded (Step 4 fun task => some (some (10 * task))) (HasRoom 4)
      (State.initial 2 : State Nat Nat) (.fill (.ofLocal [1, 2, 3]) (.ofLocal [])) _ :=
    ⟨show occupied 4 _ < 4 by decide, Step.fill _ _⟩
  have hNext (s : State Nat Nat) : Guarded (Step 4 fun task => some (some (10 * task))) (HasRoom 4)
      s .next (s.next 4) := ⟨trivial, Step.next⟩
  have hRun := (Run.single hFill).snoc (hNext _)
  exact ⟨_, hRun, prefetched_of_run (m := 2) rfl (by decide) (by decide) hRun, by decide⟩

/-- A full buffer is filled once more: the fifth task takes the place of the first one, and
is not attached to any slot. -/
theorem full_buffer_filled : ∃ s : State Nat Nat,
    Run (Step 4 fun task => some (some (10 * task))) (State.initial 2)
      [.fill (.ofLocal [1, 2, 3, 4]) (.ofLocal []), .fill (.ofLocal [5]) (.ofLocal [])] s ∧
    (∃ p, s.placements[4]? = some p ∧ p.occupied = 4 ∧ p.attachedTo = none ∧
      p.overwritten = some 1) ∧
    ¬ Prefetched 4 2 (fun task => some (some (10 * task))) s := by
  have hFill : Step 4 (fun task => some (some (10 * task))) (State.initial 2 : State Nat Nat)
      (.fill (.ofLocal [1, 2, 3, 4]) (.ofLocal [])) _ := Step.fill _ _
  have hRun := (Run.single hFill).snoc (Step.fill (.ofLocal [5]) (.ofLocal []))
  have hPlacement : ∃ p, (State.fill 4 (fun task => some (some (10 * task)))
      (State.fill 4 (fun task => some (some (10 * task))) (State.initial 2 : State Nat Nat)
        (.ofLocal [1, 2, 3, 4]) (.ofLocal [])) (.ofLocal [5]) (.ofLocal [])).placements[4]? =
      some p ∧ p.occupied = 4 ∧ p.attachedTo = none ∧ p.overwritten = some 1 :=
    ⟨⟨5, 0, 4, 0, some 1, none, some 3, ⟨none, none⟩⟩, rfl, rfl, rfl, rfl⟩
  refine ⟨_, hRun, hPlacement, fun hPrefetched => ?_⟩
  obtain ⟨p, hp, hOccupied, hNone, -⟩ := hPlacement
  obtain ⟨earlier, -, -, hSome, -⟩ := hPrefetched.attached 4 p hp (by omega)
  rw [hNone] at hSome
  cases hSome

end MxTasking.Tasking.Prefetching
