import Mathlib.Order.Basic

/-!
# From hints to synchronisation

How the isolation level a developer asks for becomes an execution.  `Builder` selects a
synchronisation primitive from the hint (`builder.cpp`, `primitive_matrix.h`), `Scheduler`
decides on which channel a task is pushed (`scheduler.h`, `scheduler.cpp`), and `Worker` decides
what it does around `execute()` (`worker.cpp`).  All three look at the primitive only.

## Main results

* `primitive_of_exclusive`, `primitive_ne_none` — what the selection promises.
* `scheduleFrom_of_bound`, `schedule_of_bound` — the tasks that are always pushed on the channel
  of their resource.
-/

namespace MxTasking.Tasking

/-- `isolation_level`. -/
inductive IsolationLevel where
  | exclusiveWriter
  | exclusive
  | none
  deriving DecidableEq, Repr

/-- `protocol`. -/
inductive Protocol where
  | none
  | queue
  | latch
  | olfit
  | transactionalMemory
  deriving DecidableEq, Repr

/-- `primitive`. -/
inductive Primitive where
  | none
  | exclusiveLatch
  | scheduleAll
  | readerWriterLatch
  | scheduleWriter
  | olfit
  deriving DecidableEq, Repr

/-- `hint::expected_access_frequency`. -/
inductive AccessFrequency where
  | excessive
  | high
  | normal
  | unused
  deriving DecidableEq, Repr

/-- `hint::expected_read_write_ratio`. -/
inductive ReadWriteRatio where
  | heavyRead
  | mostlyRead
  | balanced
  | mostlyWritten
  | heavyWritten
  deriving DecidableEq, Repr

/-- The part of a `hint` that decides on the synchronisation. -/
structure Hint where
  accessFrequency : AccessFrequency := .normal
  readWriteRatio : ReadWriteRatio := .balanced
  isolationLevel : IsolationLevel := .none
  preferredProtocol : Protocol := .none
  deriving DecidableEq, Repr

/-- `PrimitiveMatrix::select_primitive`. -/
def selectPrimitive : IsolationLevel → AccessFrequency → ReadWriteRatio → Primitive
  | .none, _, _ => .none
  | .exclusiveWriter, _, .heavyRead => .scheduleWriter
  | .exclusiveWriter, .excessive, .mostlyRead => .scheduleWriter
  | .exclusiveWriter, .high, .mostlyRead => .scheduleWriter
  | .exclusiveWriter, .normal, .mostlyRead => .olfit
  | .exclusiveWriter, .unused, .mostlyRead => .olfit
  | .exclusiveWriter, _, .balanced => .olfit
  | .exclusiveWriter, .excessive, .mostlyWritten => .olfit
  | .exclusiveWriter, .high, .mostlyWritten => .olfit
  | .exclusiveWriter, .normal, .mostlyWritten => .readerWriterLatch
  | .exclusiveWriter, .unused, .mostlyWritten => .readerWriterLatch
  | .exclusiveWriter, .excessive, .heavyWritten => .scheduleAll
  | .exclusiveWriter, .high, .heavyWritten => .scheduleAll
  | .exclusiveWriter, .normal, .heavyWritten => .readerWriterLatch
  | .exclusiveWriter, .unused, .heavyWritten => .readerWriterLatch
  | .exclusive, .excessive, _ => .scheduleAll
  | .exclusive, .high, _ => .scheduleAll
  | .exclusive, .normal, _ => .exclusiveLatch
  | .exclusive, .unused, _ => .exclusiveLatch

/-- `Builder::isolation_level_to_synchronization_primitive(hint)`. -/
def isolationLevelToSynchronizationPrimitive (hint : Hint) : Primitive :=
  if hint.preferredProtocol = .none then
    selectPrimitive hint.isolationLevel hint.accessFrequency hint.readWriteRatio
  else if hint.isolationLevel = .exclusiveWriter then
    match hint.preferredProtocol with
    | .latch => .readerWriterLatch
    | .olfit => .olfit
    | _ => .scheduleWriter
  else if hint.isolationLevel = .exclusive then
    if hint.preferredProtocol = .latch then .exclusiveLatch else .scheduleAll
  else .none

/-- Exclusive resources are latched, or all their tasks go to one channel. -/
theorem primitive_of_exclusive {hint : Hint} (h : hint.isolationLevel = .exclusive) :
    isolationLevelToSynchronizationPrimitive hint = .exclusiveLatch ∨
      isolationLevelToSynchronizationPrimitive hint = .scheduleAll := by
  obtain ⟨frequency, ratio, isolation, protocol⟩ := hint
  obtain rfl : isolation = .exclusive := h
  cases protocol <;> cases frequency <;> cases ratio <;> decide

/-- A resource with an isolation level has a primitive. -/
theorem primitive_ne_none {hint : Hint} (h : hint.isolationLevel ≠ .none) :
    isolationLevelToSynchronizationPrimitive hint ≠ .none := by
  obtain ⟨frequency, ratio, isolation, protocol⟩ := hint
  cases isolation with
  | exclusiveWriter => cases protocol <;> cases frequency <;> cases ratio <;> decide
  | exclusive => cases protocol <;> cases frequency <;> cases ratio <;> decide
  | none => exact absurd rfl h

/-! ## Resources and tasks -/

/-- `resource::information`: what the pointer to a resource tells about it. -/
structure Information where
  channelId : Nat
  synchronizationPrimitive : Primitive
  deriving DecidableEq, Repr

/-- `annotation::target`. -/
inductive Target (R : Type*) where
  | channel (channelId : Nat)
  | node (nodeId : Nat)
  | resource (r : R)
  | anywhere
  deriving DecidableEq, Repr

/-- The `annotation` of a task, but for its priority. -/
structure Annotations (R : Type*) where
  isReadonly : Bool
  target : Target R
  deriving DecidableEq, Repr

variable {R : Type*}

/-! ## Scheduling -/

/-- `Scheduler::keep_task_local`. -/
def keepTaskLocal (isReadonly : Bool) (primitive : Primitive)
    (resourceChannelId currentChannelId : Nat) : Bool :=
  resourceChannelId = currentChannelId ||
    (isReadonly && primitive ≠ .scheduleAll) ||
    (primitive ≠ .none && primitive ≠ .scheduleAll && primitive ≠ .scheduleWriter)

/-- `Scheduler::schedule(task, current_channel_id)`: the channel the task is pushed on.
Scheduling for a NUMA node is not implemented. -/
def scheduleFrom (info : R → Information) (task : Annotations R) (currentChannelId : Nat) :
    Option Nat :=
  match task.target with
  | .resource r =>
      if keepTaskLocal task.isReadonly (info r).synchronizationPrimitive (info r).channelId
          currentChannelId then some currentChannelId
      else some (info r).channelId
  | .channel targetChannelId =>
      if targetChannelId = currentChannelId then some currentChannelId else some targetChannelId
  | .node _ => none
  | .anywhere => some currentChannelId

/-- `Scheduler::schedule(task)`. -/
def schedule (info : R → Information) (task : Annotations R) : Option Nat :=
  match task.target with
  | .resource r => some (info r).channelId
  | .channel targetChannelId => some targetChannelId
  | .node _ => none
  | .anywhere => none

/-- The task has to be executed on the channel of its resource. -/
def Bound (info : R → Information) (task : Annotations R) (r : R) : Prop :=
  task.target = .resource r ∧ ((info r).synchronizationPrimitive = .scheduleAll ∨
    (info r).synchronizationPrimitive = .scheduleWriter ∧ task.isReadonly = false)

theorem keepTaskLocal_of_bound {info : R → Information} {task : Annotations R} {r : R}
    (h : Bound info task r) {currentChannelId : Nat}
    (hKeep : keepTaskLocal task.isReadonly (info r).synchronizationPrimitive (info r).channelId
      currentChannelId = true) : (info r).channelId = currentChannelId := by
  rcases h.2 with hAll | ⟨hWriter, hTask⟩
  · simpa [keepTaskLocal, hAll] using hKeep
  · simpa [keepTaskLocal, hWriter, hTask] using hKeep

/-- A bound task is pushed on the channel of its resource. -/
theorem scheduleFrom_of_bound {info : R → Information} {task : Annotations R} {r : R}
    (h : Bound info task r) {currentChannelId channelId : Nat}
    (hChannel : scheduleFrom info task currentChannelId = some channelId) :
    channelId = (info r).channelId := by
  unfold scheduleFrom at hChannel
  rw [h.1] at hChannel
  dsimp only at hChannel
  split at hChannel
  · rename_i hKeep
    rw [keepTaskLocal_of_bound h hKeep]
    exact (Option.some.inj hChannel).symm
  · exact (Option.some.inj hChannel).symm

theorem schedule_of_bound {info : R → Information} {task : Annotations R} {r : R}
    (h : Bound info task r) {channelId : Nat} (hChannel : schedule info task = some channelId) :
    channelId = (info r).channelId := by
  unfold schedule at hChannel
  rw [h.1] at hChannel
  exact (Option.some.inj hChannel).symm

/-! ## Dispatch -/

/-- What a worker does around `execute()`. -/
inductive Mode where
  /-- Nothing. -/
  | plain
  /-- `scoped_exclusive_latch`. -/
  | exclusive
  /-- `scoped_rw_latch<false>`. -/
  | sharedRead
  /-- `scoped_rw_latch<true>`. -/
  | sharedWrite
  /-- `execute_optimistic_read`. -/
  | optimisticRead
  /-- `scoped_optimistic_latch`. -/
  | optimisticWrite
  /-- `scoped_olfit_latch`. -/
  | olfitWrite
  deriving DecidableEq, Repr

/-- The `switch` in `Worker::execute` and the functions it calls, for a worker of channel
`channelId`. -/
def dispatch (info : R → Information) (channelId : Nat) (task : Annotations R) : Mode :=
  match task.target with
  | .resource r =>
      match (info r).synchronizationPrimitive with
      | .scheduleWriter =>
          if task.isReadonly then
            if (info r).channelId ≠ channelId then .optimisticRead else .plain
          else .optimisticWrite
      | .olfit => if task.isReadonly then .optimisticRead else .olfitWrite
      | .scheduleAll => .plain
      | .none => .plain
      | .readerWriterLatch => if task.isReadonly then .sharedRead else .sharedWrite
      | .exclusiveLatch => .exclusive
  | _ => .plain

section Dispatch

variable {info : R → Information} {channelId : Nat} {task : Annotations R} {r : R}

theorem dispatch_of_scheduleWriter (hTarget : task.target = .resource r)
    (hPrimitive : (info r).synchronizationPrimitive = .scheduleWriter) :
    dispatch info channelId task =
      if task.isReadonly then
        if (info r).channelId ≠ channelId then .optimisticRead else .plain
      else .optimisticWrite := by
  simp only [dispatch, hTarget, hPrimitive]

theorem dispatch_of_olfit (hTarget : task.target = .resource r)
    (hPrimitive : (info r).synchronizationPrimitive = .olfit) :
    dispatch info channelId task = if task.isReadonly then .optimisticRead else .olfitWrite := by
  simp only [dispatch, hTarget, hPrimitive]

theorem dispatch_of_readerWriterLatch (hTarget : task.target = .resource r)
    (hPrimitive : (info r).synchronizationPrimitive = .readerWriterLatch) :
    dispatch info channelId task = if task.isReadonly then .sharedRead else .sharedWrite := by
  simp only [dispatch, hTarget, hPrimitive]

theorem dispatch_of_exclusiveLatch (hTarget : task.target = .resource r)
    (hPrimitive : (info r).synchronizationPrimitive = .exclusiveLatch) :
    dispatch info channelId task = .exclusive := by
  simp only [dispatch, hTarget, hPrimitive]

/-- Only readers validate a version. -/
theorem isReadonly_of_optimisticRead (h : dispatch info channelId task = .optimisticRead) :
    task.isReadonly = true := by
  unfold dispatch at h
  cases hReader : task.isReadonly with
  | true => rfl
  | false => grind

/-- Optimistic readers are executed anywhere. -/
theorem not_bound_of_optimisticRead (h : dispatch info channelId task = .optimisticRead) :
    ¬ Bound info task r := by
  rintro ⟨hTarget, hAll | ⟨-, hWriter⟩⟩
  · simp [dispatch, hTarget, hAll] at h
  · rw [isReadonly_of_optimisticRead h] at hWriter
    exact nomatch hWriter

/-- Only writers of a resource with scheduled writers use `fetch_add`. -/
theorem scheduleWriter_of_optimisticWrite (hTarget : task.target = .resource r)
    (h : dispatch info channelId task = .optimisticWrite) :
    (info r).synchronizationPrimitive = .scheduleWriter := by
  simp only [dispatch, hTarget] at h
  cases hPrimitive : (info r).synchronizationPrimitive with
  | scheduleWriter => rfl
  | _ => grind

end Dispatch

end MxTasking.Tasking
