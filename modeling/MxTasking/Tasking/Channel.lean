import MxTasking.Tasking.TaskBuffer
import MxTasking.Verified.TransitionSystem

/-!
# A channel and its worker

`channel.h`, the loop of `Worker::execute` and `ProfilingTask::execute`.  Tasks are pushed to
backend queues by anybody, and the worker that owns the channel moves them to its task buffer
and takes them out one by one.

Pushes interleave with what the worker does: each access to a queue is a step.  `Control` is
the place in the source where the worker is.  A task may push further tasks while it is executed,
and a `ProfilingTask` calls `fill` itself as long as the buffer is empty; the worker's
`_channel_size` then tells less than there is in the buffer.

A task is kept together with the queue it was pushed to; the program does not record that.

## Main results

* `Step.inv` — what the worker knows of the buffer at each place.
* `exactly_once_of_run` — no slot is overwritten, every pushed task is in its queue, in the buffer
  or returned, in the order of the pushes, and `fill` returns the size of the buffer.
* `room_when_filling` — `Channel::fill` is called while there is a free slot.
-/

namespace MxTasking.Tasking

open MxTasking.Verified

/-- `priority`. -/
inductive Priority where
  | low
  | normal
  deriving DecidableEq, Repr

/-- `memory::config::max_numa_nodes()`. -/
def maxNumaNodes : Nat := 8

/-- The backend queues of a channel: one local queue and one for each NUMA region of a
producer, for each priority. -/
inductive Backend where
  | localQueue (priority : Priority)
  | remoteQueue (priority : Priority) (numaNodeId : Nat)
  deriving DecidableEq, Repr

/-- A task and the queue it was pushed to. -/
structure Spawned (T : Type*) where
  backend : Backend
  task : T

/-- Who has called `Channel::fill`. -/
inductive Caller where
  | outer
  | refill
  | profiling
  deriving DecidableEq, Repr

/-- Where the worker is. -/
inductive Control where
  /-- At the head of the outer loop. -/
  | outer
  /-- In `fill<P>`, before `_task_buffer.fill` for the queue with number `index`. -/
  | fill (caller : Caller) (priority : Priority) (index available : Nat)
  /-- In the loop of `TaskBuffer::fill`, with `count = available`. -/
  | pop (caller : Caller) (priority : Priority) (index available i prefetchTail : Nat)
  /-- `Channel::fill` has returned. -/
  | filled (caller : Caller) (size : Nat)
  /-- Before `next()`. -/
  | inner
  /-- `next()` has returned a task. -/
  | taken
  | executing
  deriving DecidableEq, Repr

/-- A channel, its worker and what has happened to the tasks so far. -/
structure State (T : Type*) where
  numaNodeId : Nat
  /-- The worker's prefetch distance, in 16 bits. -/
  prefetchDistance : Nat
  queues : Backend → List (Spawned T)
  buffer : TaskBuffer (Spawned T)
  channelSize : Int
  control : Control
  pushed : Backend → List (Spawned T)
  returned : List (Spawned T)
  /-- Whether a slot with a task in it has been written to. -/
  overwritten : Bool

variable {T : Type*}

/-- A worker before its first round; the buffer keeps the prefetch distance in 8 bits. -/
def State.initial (numaNodeId prefetchDistance : Nat) : State T where
  numaNodeId := numaNodeId
  prefetchDistance := prefetchDistance
  queues := fun _ => []
  buffer := TaskBuffer.construct (prefetchDistance % 2 ^ 8)
  channelSize := 0
  control := .outer
  pushed := fun _ => []
  returned := []
  overwritten := false

/-- The queue with number `index` in `fill<P>`: the local one first, then the remote ones from
the worker's own region on. -/
def State.queueAt (s : State T) (priority : Priority) : Nat → Backend
  | 0 => .localQueue priority
  | i + 1 => .remoteQueue priority ((s.numaNodeId + i) &&& (maxNumaNodes - 1))

/-- The queues of a priority are done: all of them, or the remote ones are skipped since there
is no slot left. -/
def fillEnds (index available : Nat) : Bool :=
  index = maxNumaNodes + 1 || (index = 1 && available = 0)

/-- `push_back`. -/
def State.push (s : State T) (queue : Backend) (task : T) : State T :=
  { s with
    queues := Function.update s.queues queue (s.queues queue ++ [⟨queue, task⟩])
    pushed := Function.update s.pushed queue (s.pushed queue ++ [⟨queue, task⟩]) }

inductive Event (T : Type*) where
  | pushRemote (priority : Priority) (numaNodeId : Nat) (task : T)
  | pushLocal (priority : Priority) (task : T)
  | worker

/-- One step of a producer or of the worker. -/
inductive Step : State T → Event T → State T → Prop where
  | pushRemote {s : State T} {priority : Priority} {numaNodeId : Nat} {task : T}
      (hNode : numaNodeId < maxNumaNodes) :
      Step s (.pushRemote priority numaNodeId task)
        (s.push (.remoteQueue priority numaNodeId) task)
  /-- A task pushes to the channel it is executed on. -/
  | pushLocal {s : State T} {priority : Priority} {task : T} (hControl : s.control = .executing) :
      Step s (.pushLocal priority task) (s.push (.localQueue priority) task)
  | outer {s : State T} (hControl : s.control = .outer) :
      Step s .worker { s with control := .fill .outer .normal 0 s.buffer.availableSlots }
  /-- `count == 0U || from_queue.empty()`. -/
  | skip {s : State T} {caller : Caller} {priority : Priority} {index available : Nat}
      (hControl : s.control = .fill caller priority index available)
      (hEnds : fillEnds index available = false)
      (hNothing : available = 0 ∨ s.queues (s.queueAt priority index) = []) :
      Step s .worker { s with control := .fill caller priority (index + 1) available }
  | enter {s : State T} {caller : Caller} {priority : Priority} {index available : Nat}
      (hControl : s.control = .fill caller priority index available)
      (hEnds : fillEnds index available = false) (hCount : available ≠ 0)
      (hQueue : s.queues (s.queueAt priority index) ≠ []) :
      Step s .worker
        { s with
          control := .pop caller priority index available 0
            (TaskBuffer.normalizeBackward s.buffer.tail s.buffer.prefetchDistance) }
  | put {s : State T} {caller : Caller} {priority : Priority}
      {index available i prefetchTail : Nat} {task : Spawned T} {rest : List (Spawned T)}
      (hControl : s.control = .pop caller priority index available i prefetchTail)
      (hRound : i < available) (hQueue : s.queues (s.queueAt priority index) = task :: rest) :
      Step s .worker
        { s with
          queues := Function.update s.queues (s.queueAt priority index) rest
          buffer := s.buffer.put task (taskBufferSize - available) i prefetchTail
          overwritten := s.overwritten || (s.buffer.tasks s.buffer.tail).isSome
          control := .pop caller priority index available (i + 1)
            (TaskBuffer.normalize (prefetchTail + 1)) }
  /-- `pop_front` returns null: the queue is empty, or a push to it is not finished. -/
  | null {s : State T} {caller : Caller} {priority : Priority}
      {index available i prefetchTail : Nat}
      (hControl : s.control = .pop caller priority index available i prefetchTail)
      (hRound : i < available) :
      Step s .worker { s with control := .fill caller priority (index + 1) (available - i) }
  | count {s : State T} {caller : Caller} {priority : Priority}
      {index available i prefetchTail : Nat}
      (hControl : s.control = .pop caller priority index available i prefetchTail)
      (hRound : ¬ i < available) :
      Step s .worker
        { s with control := .fill caller priority (index + 1) (available - available) }
  /-- Nothing of normal priority: fill with low priority. -/
  | low {s : State T} {caller : Caller} {index available : Nat}
      (hControl : s.control = .fill caller .normal index available)
      (hEnds : fillEnds index available = true) (hEmpty : s.buffer.empty = true) :
      Step s .worker { s with control := .fill caller .low 0 taskBufferSize }
  | filled {s : State T} {caller : Caller} {priority : Priority} {index available : Nat}
      (hControl : s.control = .fill caller priority index available)
      (hEnds : fillEnds index available = true)
      (hLow : priority = .normal → s.buffer.empty = false) :
      Step s .worker { s with control := .filled caller (taskBufferSize - available) }
  | enterInner {s : State T} {size : Nat} (hControl : s.control = .filled .outer size) :
      Step s .worker { s with channelSize := size, control := .inner }
  | afterRefill {s : State T} {size : Nat} (hControl : s.control = .filled .refill size) :
      Step s .worker { s with channelSize := size, control := .executing }
  | afterProfiling {s : State T} {size : Nat} (hControl : s.control = .filled .profiling size) :
      Step s .worker { s with control := .executing }
  | next {s : State T} {buffer : TaskBuffer (Spawned T)} {task : Spawned T}
      (hControl : s.control = .inner) (hNext : s.buffer.next = (buffer, some task)) :
      Step s .worker
        { s with buffer := buffer, returned := s.returned ++ [task], control := .taken }
  | drained {s : State T} {buffer : TaskBuffer (Spawned T)} (hControl : s.control = .inner)
      (hNext : s.buffer.next = (buffer, none)) :
      Step s .worker { s with buffer := buffer, control := .outer }
  /-- `--_channel_size <= _prefetch_distance`. -/
  | refill {s : State T} (hControl : s.control = .taken)
      (hSmall : s.channelSize - 1 ≤ s.prefetchDistance) :
      Step s .worker
        { s with
          channelSize := s.channelSize - 1
          control := .fill .refill .normal 0 s.buffer.availableSlots }
  | execute {s : State T} (hControl : s.control = .taken)
      (hLarge : ¬ s.channelSize - 1 ≤ s.prefetchDistance) :
      Step s .worker { s with channelSize := s.channelSize - 1, control := .executing }
  /-- A `ProfilingTask` is executed, and the buffer is empty. -/
  | profiling {s : State T} (hControl : s.control = .executing)
      (hEmpty : s.buffer.empty = true) :
      Step s .worker { s with control := .fill .profiling .normal 0 s.buffer.availableSlots }
  | executed {s : State T} (hControl : s.control = .executing) :
      Step s .worker { s with control := .inner }

/-- What the channel promises of its tasks. -/
structure State.ExactlyOnce (s : State T) : Prop where
  noOverwrite : s.overwritten = false
  /-- In the order of the pushes to a queue: what has been returned, what is in
  the buffer and what is still in the queue. -/
  conserved : ∀ queue, s.pushed queue
    = (s.returned ++ s.buffer.contents).filter (fun task => task.backend = queue)
      ++ s.queues queue
  filled : ∀ caller size, s.control = .filled caller size → size = s.buffer.occupied
  /-- Every slot that is accessed is one of the buffer. -/
  inBounds : s.buffer.head < taskBufferSize ∧ s.buffer.tail < taskBufferSize ∧
    ∀ caller priority index available i prefetchTail,
      s.control = .pop caller priority index available i prefetchTail → i < available →
      0 < s.buffer.prefetchDistance →
      s.buffer.prefetchDistance ≤ taskBufferSize - available + i → prefetchTail < taskBufferSize

/-! ## The invariant -/

/-- What the worker knows of the buffered tasks `xs` where it is.  Inside `fill` the free slots
are counted down; when `fill` is called, the buffer is not full. -/
def ControlOk (b : TaskBuffer (Spawned T)) (xs : List (Spawned T)) : Control → Prop
  | .outer => xs = []
  | .fill _ _ _ available => available + xs.length = taskBufferSize
  | .pop _ _ _ available i prefetchTail =>
      i ≤ available ∧ available - i + xs.length = taskBufferSize ∧
      (b.prefetchDistance ≤ taskBufferSize - available + i → prefetchTail < taskBufferSize)
  | .filled _ size => size = xs.length
  | .inner => True
  | .taken => xs.length < taskBufferSize
  | .executing => True

structure State.Inv (s : State T) (xs : List (Spawned T)) : Prop where
  noOverwrite : s.overwritten = false
  holds : s.buffer.Holds xs
  tagged : ∀ queue, ∀ task ∈ s.queues queue, task.backend = queue
  conserved : ∀ queue, s.pushed queue
    = (s.returned ++ xs).filter (fun task => task.backend = queue) ++ s.queues queue
  control : ControlOk s.buffer xs s.control

theorem State.inv_initial (numaNodeId prefetchDistance : Nat) :
    (State.initial numaNodeId prefetchDistance : State T).Inv [] where
  noOverwrite := rfl
  holds := TaskBuffer.holds_construct _
  tagged := by simp [initial]
  conserved := by simp [initial]
  control := rfl

namespace State.Inv

variable {s : State T} {xs : List (Spawned T)}

/-- The worker goes on without touching a task. -/
theorem move (h : s.Inv xs) {control : Control} {channelSize : Int}
    (hControl : ControlOk s.buffer xs control) :
    State.Inv { s with channelSize := channelSize, control := control } xs :=
  ⟨h.noOverwrite, h.holds, h.tagged, h.conserved, hControl⟩

theorem push (h : s.Inv xs) (queue : Backend) (task : T) : (s.push queue task).Inv xs := by
  refine ⟨h.noOverwrite, h.holds, fun q t ht => ?_, fun q => ?_, h.control⟩
  · unfold State.push at ht
    dsimp only at ht
    by_cases hEq : q = queue
    · subst hEq
      rw [Function.update_self, List.mem_append, List.mem_singleton] at ht
      rcases ht with ht | rfl
      · exact h.tagged q t ht
      · rfl
    · rw [Function.update_of_ne hEq] at ht
      exact h.tagged q t ht
  · unfold State.push
    dsimp only
    by_cases hEq : q = queue
    · subst hEq
      rw [Function.update_self, Function.update_self, h.conserved q, List.append_assoc]
    · rw [Function.update_of_ne hEq, Function.update_of_ne hEq]
      exact h.conserved q

/-- `next()` takes the first task out of the buffer. -/
theorem next (h : s.Inv xs) {buffer : TaskBuffer (Spawned T)} {task : Spawned T}
    (hNext : s.buffer.next = (buffer, some task)) :
    ∃ rest, State.Inv
      { s with buffer := buffer, returned := s.returned ++ [task], control := .taken } rest := by
  obtain ⟨rest, rfl, hRest⟩ := h.holds.next hNext
  refine ⟨rest, h.noOverwrite, hRest, h.tagged, fun queue => ?_, ?_⟩
  · rw [h.conserved queue, List.append_assoc]
    rfl
  · have hFull := h.holds.length_le
    rw [List.length_cons] at hFull
    show rest.length < taskBufferSize
    omega

/-- A task moves from a queue into the buffer. -/
theorem put (h : s.Inv xs) {caller : Caller} {priority : Priority}
    {index available i prefetchTail : Nat} {task : Spawned T} {rest : List (Spawned T)}
    {queue : Backend} (hControl : s.control = .pop caller priority index available i prefetchTail)
    (hRound : i < available) (hQueue : s.queues queue = task :: rest) :
    State.Inv
      { s with
        queues := Function.update s.queues queue rest
        buffer := s.buffer.put task (taskBufferSize - available) i prefetchTail
        overwritten := s.overwritten || (s.buffer.tasks s.buffer.tail).isSome
        control := .pop caller priority index available (i + 1)
          (TaskBuffer.normalize (prefetchTail + 1)) } (xs ++ [task]) := by
  have hOk := h.control
  rw [hControl] at hOk
  obtain ⟨-, hCount, -⟩ := hOk
  have hRoom : xs.length < taskBufferSize := by omega
  have hTag : task.backend = queue := h.tagged queue task (by simp [hQueue])
  refine ⟨?_, h.holds.put hRoom task _ _ _, fun q t ht => ?_, fun q => ?_, by omega, ?_, ?_⟩
  · dsimp only
    rw [h.noOverwrite, h.holds.tail_isNone hRoom]
    rfl
  · dsimp only at ht
    by_cases hEq : q = queue
    · subst hEq
      rw [Function.update_self] at ht
      exact h.tagged q t (by simp [hQueue, ht])
    · rw [Function.update_of_ne hEq] at ht
      exact h.tagged q t ht
  · dsimp only
    rw [← List.append_assoc, List.filter_append, h.conserved q]
    by_cases hEq : q = queue
    · subst hEq
      simp [hQueue, hTag]
    · have hOther : ¬ task.backend = q := fun hSame => hEq (hSame.symm.trans hTag)
      simp [hOther, Function.update_of_ne hEq]
  · rw [List.length_append, List.length_singleton]
    omega
  · intro _
    rw [TaskBuffer.normalize_eq]
    exact Nat.mod_lt _ (by decide)

end State.Inv

theorem Step.inv {s s' : State T} {ev : Event T} {xs : List (Spawned T)} (h : s.Inv xs)
    (hStep : Step s ev s') : ∃ xs', s'.Inv xs' := by
  have hControlOk := h.control
  cases hStep with
  | pushRemote hNode => exact ⟨xs, h.push _ _⟩
  | pushLocal hControl => exact ⟨xs, h.push _ _⟩
  | outer hControl =>
      rw [hControl] at hControlOk
      obtain rfl : xs = [] := hControlOk
      exact ⟨[], h.move (h.holds.availableSlots_eq (show 0 < taskBufferSize by decide))⟩
  | skip hControl hEnds hNothing =>
      rw [hControl] at hControlOk
      exact ⟨xs, h.move hControlOk⟩
  | enter hControl hEnds hCount hQueue =>
      rw [hControl] at hControlOk
      have hSum : _ + xs.length = taskBufferSize := hControlOk
      refine ⟨xs, h.move ⟨Nat.zero_le _, hSum, fun hPrefetch => ?_⟩⟩
      exact TaskBuffer.prefetchTail_lt h.holds.tail_lt (by omega)
  | put hControl hRound hQueue => exact ⟨_, h.put hControl hRound hQueue⟩
  | null hControl hRound =>
      rw [hControl] at hControlOk
      exact ⟨xs, h.move hControlOk.2.1⟩
  | count hControl hRound =>
      rw [hControl] at hControlOk
      obtain ⟨hLe, hSum, -⟩ := hControlOk
      refine ⟨xs, h.move (show _ + xs.length = taskBufferSize by omega)⟩
  | low hControl hEnds hEmpty =>
      obtain rfl := h.holds.empty_iff.mp hEmpty
      exact ⟨[], h.move (show taskBufferSize + 0 = taskBufferSize from rfl)⟩
  | @filled caller priority index available hControl hEnds hLow =>
      rw [hControl] at hControlOk
      have hSum : available + xs.length = taskBufferSize := hControlOk
      exact ⟨xs, h.move (show taskBufferSize - available = xs.length by omega)⟩
  | enterInner hControl => exact ⟨xs, h.move trivial⟩
  | afterRefill hControl => exact ⟨xs, h.move trivial⟩
  | afterProfiling hControl => exact ⟨xs, h.move trivial⟩
  | next hControl hNext => exact h.next hNext
  | @drained buffer hControl hNext =>
      obtain ⟨rfl, rfl⟩ := h.holds.next_none hNext
      exact ⟨[], h.move rfl⟩
  | refill hControl hSmall =>
      rw [hControl] at hControlOk
      exact ⟨xs, h.move (h.holds.availableSlots_eq hControlOk)⟩
  | execute hControl hLarge => exact ⟨xs, h.move trivial⟩
  | profiling hControl hEmpty =>
      obtain rfl := h.holds.empty_iff.mp hEmpty
      exact ⟨[], h.move (h.holds.availableSlots_eq (show 0 < taskBufferSize by decide))⟩
  | executed hControl => exact ⟨xs, h.move trivial⟩

/-! ## A worker left alone -/

/-- A step of a worker that does not execute and takes no task out of the buffer. -/
def Turn (s s' : State T) : Prop :=
  s.control ≠ .executing ∧ Step s .worker s' ∧ s'.returned = s.returned

/-- Some of these steps. -/
def Turns : State T → State T → Prop := Relation.ReflTransGen Turn

namespace Turns

variable {s s₁ s' : State T}

theorem refl (s : State T) : Turns s s := Relation.ReflTransGen.refl

theorem trans (h : Turns s s₁) (h' : Turns s₁ s') : Turns s s' := Relation.ReflTransGen.trans h h'

theorem head (hControl : s.control ≠ .executing) (hStep : Step s .worker s₁)
    (hReturned : s₁.returned = s.returned) (h : Turns s₁ s') : Turns s s' :=
  Relation.ReflTransGen.head ⟨hControl, hStep, hReturned⟩ h

theorem inv (h : Turns s s') (hInv : ∃ xs, s.Inv xs) : ∃ xs, s'.Inv xs := by
  induction h with
  | refl => exact hInv
  | tail _ hTurn ih =>
      obtain ⟨xs, hxs⟩ := ih
      exact hTurn.2.1.inv hxs

/-- A run goes on with them. -/
theorem after {s₀ : State T} {es : List (Event T)} (hRun : Run Step s₀ es s) (h : Turns s s') :
    ∃ es', Run Step s₀ es' s' := by
  induction h with
  | refl => exact ⟨es, hRun⟩
  | tail _ hTurn ih =>
      obtain ⟨es', hMid⟩ := ih
      exact ⟨_, hMid.snoc hTurn.2.1⟩

/-- `fill<P>` goes by the queues when they are empty. -/
theorem skip {caller : Caller} {p : Priority} {available : Nat} (hCount : available ≠ 0)
    (n : Nat) : ∀ (s : State T) (index : Nat), s.control = .fill caller p index available →
      n + index = maxNumaNodes + 1 → (∀ queue, s.queues queue = []) →
      Turns s { s with control := .fill caller p (maxNumaNodes + 1) available } := by
  induction n with
  | zero =>
      intro s index hControl hIndex _
      rw [Nat.zero_add] at hIndex
      rw [← hIndex, ← hControl]
      exact refl s
  | succ n ih =>
      intro s index hControl hIndex hEmpty
      have hEnds : fillEnds index available = false := by
        have hLast : index ≠ maxNumaNodes + 1 := by omega
        simp [fillEnds, hLast, hCount]
      have hSkip := Step.skip hControl hEnds (.inr (hEmpty _))
      exact head (by rw [hControl]; nofun) hSkip rfl
        (ih _ (index + 1) rfl (by omega) hEmpty)

/-- `fill<P>` moves the only task of a queue. -/
theorem take {caller : Caller} {p : Priority} {index available : Nat} {task : Spawned T}
    (hControl : s.control = .fill caller p index available)
    (hEnds : fillEnds index available = false) (hCount : 1 < available)
    (hQueue : s.queues (s.queueAt p index) = [task]) :
    Turns s
      { s with
        queues := Function.update s.queues (s.queueAt p index) []
        buffer := s.buffer.put task (taskBufferSize - available) 0
          (TaskBuffer.normalizeBackward s.buffer.tail s.buffer.prefetchDistance)
        overwritten := s.overwritten || (s.buffer.tasks s.buffer.tail).isSome
        control := .fill caller p (index + 1) (available - 1) } := by
  have hEnter := Step.enter hControl hEnds (by omega) (by rw [hQueue]; exact List.cons_ne_nil _ _)
  exact head (by rw [hControl]; nofun) hEnter rfl
    (head nofun (.put rfl (Nat.lt_of_succ_lt hCount) hQueue) rfl
      (head nofun (.null rfl hCount) rfl (refl _)))

end Turns

/-! ## Every run -/

theorem State.Inv.exactlyOnce {s : State T} {xs : List (Spawned T)} (h : s.Inv xs) :
    s.ExactlyOnce := by
  refine ⟨h.noOverwrite, fun queue => ?_, fun caller size hControl => ?_, h.holds.head_lt,
    h.holds.tail_lt, fun caller priority index available i prefetchTail hControl hRound _ => ?_⟩
  · rw [TaskBuffer.contents, h.holds.contents_eq]
    exact h.conserved queue
  · have hOk := h.control
    rw [hControl] at hOk
    rw [TaskBuffer.occupied, h.holds.occupied_eq]
    exact hOk
  · have hOk := h.control
    rw [hControl] at hOk
    exact hOk.2.2

theorem inv_of_run {numaNodeId prefetchDistance : Nat} {es : List (Event T)} {s : State T}
    (hRun : Run Step (State.initial numaNodeId prefetchDistance) es s) : ∃ xs, s.Inv xs := by
  refine hRun.invariant (P := fun s : State T => ∃ xs, s.Inv xs) ⟨[], State.inv_initial _ _⟩ ?_
  rintro ev mid fin ⟨xs, hMid⟩ hStep
  exact hStep.inv hMid

/-- Whatever is pushed while the worker runs, every task is returned at most once
and in order, and none is lost. -/
theorem exactly_once_of_run {numaNodeId prefetchDistance : Nat} {es : List (Event T)}
    {s : State T} (hRun : Run Step (State.initial numaNodeId prefetchDistance) es s) :
    s.ExactlyOnce := by
  obtain ⟨xs, hInv⟩ := inv_of_run hRun
  exact hInv.exactlyOnce

/-- Two tasks of producers in different regions are moved to the buffer, taken out and executed; in
front of the second execution the worker fills the buffer again and finds nothing. -/
theorem exactly_once_of_run_two : ∃ (es : List (Event Nat)) (s : State Nat),
    Run Step (State.initial 0 0) es s ∧ s.ExactlyOnce ∧
      s.returned = [⟨.remoteQueue .normal 0, 6⟩, ⟨.remoteQueue .normal 1, 5⟩] ∧
      s.control = .executing ∧ s.channelSize = 0 := by
  have hPush := (Run.single (show Step (State.initial 0 0 : State Nat) (.pushRemote .normal 1 5) _
    from .pushRemote (by decide))).snoc (show Step _ (.pushRemote .normal 0 6) _
      from .pushRemote (by decide))
  have hEmpty : ∀ queue, Function.update (Function.update
      ((State.initial 0 0 : State Nat).push (.remoteQueue .normal 1) 5 |>.push
        (.remoteQueue .normal 0) 6).queues (.remoteQueue .normal 0) [])
      (.remoteQueue .normal 1) [] queue = [] := by
    intro queue
    simp only [State.push, State.initial, Function.update_apply]
    split_ifs <;> rfl
  -- the first `fill` finds a task in each of the queues of regions 0 and 1
  have hLocal := (hPush.snoc (.outer rfl)).snoc (.skip rfl (by decide) (.inr rfl))
  obtain ⟨es₀, hFirst⟩ := Turns.after hLocal (.take rfl (by decide) (by decide) rfl)
  obtain ⟨es₁, hPassed⟩ := Turns.after hFirst ((Turns.take rfl (by decide) (by decide) rfl).trans
    (.skip (by decide) 6 _ 3 rfl rfl hEmpty))
  have hTaken := (((((hPassed.snoc (.filled rfl rfl fun _ => rfl)).snoc (.enterInner rfl)).snoc
    (.next rfl rfl)).snoc (.execute rfl (by decide))).snoc (.executed rfl)).snoc (.next rfl rfl)
  -- the buffer is empty now, so both priorities are asked
  have hRefill := hTaken.snoc (.refill rfl (by decide))
  obtain ⟨es₂, hNormal⟩ := Turns.after hRefill (.skip (by decide) 9 _ 0 rfl rfl hEmpty)
  obtain ⟨es₃, hLow⟩ := Turns.after (hNormal.snoc (.low rfl rfl rfl))
    (.skip (by decide) 9 _ 0 rfl rfl hEmpty)
  have hEnd := (hLow.snoc (.filled rfl rfl nofun)).snoc (.afterRefill rfl)
  exact ⟨_, _, hEnd, exactly_once_of_run hEnd, rfl, rfl, rfl⟩

/-- Nobody calls `Channel::fill` while the buffer is full. -/
theorem room_when_filling {numaNodeId prefetchDistance available : Nat} {es : List (Event T)}
    {s s' : State T} {caller : Caller}
    (hRun : Run Step (State.initial numaNodeId prefetchDistance) es s) (hStep : Step s .worker s')
    (hFill : s'.control = .fill caller .normal 0 available) :
    s.buffer.occupied < taskBufferSize := by
  obtain ⟨xs, hInv⟩ := inv_of_run hRun
  have hControlOk := hInv.control
  rw [TaskBuffer.occupied, hInv.holds.occupied_eq]
  cases hStep with
  | outer hControl =>
      rw [hControl] at hControlOk
      obtain rfl : xs = [] := hControlOk
      exact show 0 < taskBufferSize by decide
  | refill hControl hSmall =>
      rw [hControl] at hControlOk
      exact hControlOk
  | profiling hControl hEmpty =>
      obtain rfl := hInv.holds.empty_iff.mp hEmpty
      exact show 0 < taskBufferSize by decide
  | skip => cases hFill
  | enter => cases hFill
  | put => cases hFill
  | null => cases hFill
  | count => cases hFill
  | low => cases hFill
  | filled => cases hFill
  | enterInner => cases hFill
  | afterRefill => cases hFill
  | afterProfiling => cases hFill
  | next => cases hFill
  | drained => cases hFill
  | execute => cases hFill
  | executed => cases hFill

end MxTasking.Tasking
