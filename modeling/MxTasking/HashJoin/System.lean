import MxTasking.HashJoin.InlineHashtable

/-!
# The tasks of the hash join

`partition_task.h`, `build_task.h`, `probe_task.h`, `notification_task.h`, `merge_task.cpp`,
`listener.h`, `notifier.cpp` and `Benchmark::start()` of `benchmark.cpp`.  Every channel has one
chunk of each table.  A `PartitionTask` distributes the rows of its chunk to the channels, in
batches that become a `BuildTask` or a `ProbeTask` there; behind the last batch it sends a
`NotificationTask` to every channel.  The notifications are counted, first on each channel and then
over the channels, and the last one starts the next phase: the probe tasks, and then the merge.

The tasks from one channel to another one are executed in the order they were spawned.  Everything
else is up to the scheduler: a step is one access of the shared state by one channel, and the
channels take their steps in any order.

A channel that is in a loop without end has a step for ever, or none when nothing in the loop can
be seen by the others: `get` and `insert` of a table in which the key has no slot.
A write behind the memory of a result set has no step either.
-/

namespace MxTasking.HashJoin

open MxTasking.Memory.AlignmentHelper.SizeT (nextPowerOfTwo)

/-! ## The program -/

/-- The two phases: `PartitionTask<BuildTask>` and `PartitionTask<ProbeTask>`. -/
inductive Kind where
  | build
  | probe
  deriving DecidableEq, Repr

/-- A row id and a key. -/
structure Row where
  id : Nat
  key : UInt32
  deriving DecidableEq, Repr

/-- The tasks.  A batch is a `BuildTask` or a `ProbeTask`. -/
inductive Task where
  | partition (kind : Kind) (index : Nat)
  | batch (kind : Kind) (rows : List Row)
  | notification (kind : Kind)
  | merge
  deriving DecidableEq, Repr

/-- `tuples_per_core(count_join_keys, count_cores)`: whole cache lines of 16 keys. -/
def tuplesPerCore (countJoinKeys countCores : Nat) : Nat :=
  countJoinKeys * 4 / 64 / countCores * (64 / 4)

/-- What one run of the benchmark starts from: the keys of both tables, the number of cores, the
batch size, `std::hash<std::uint32_t>` and the size of the hash tables, of `2 ^ tableBits` slots. -/
structure Join where
  countCores : Nat
  left : List UInt32
  right : List UInt32
  batchSize : Nat
  stdHash : UInt32 → Nat
  tableBits : Nat
  pos : 0 < countCores
  fits : countCores < 2 ^ 16
  /-- `needed_bytes(count_left_keys_per_core * 1.5)`, where that is defined. -/
  table : tuplesPerCore left.length countCores ≠ 0 →
    2 ^ tableBits = nextPowerOfTwo (tuplesPerCore left.length countCores * 3 / 2)

namespace Join

/-- The keys that are built or probed. -/
def keys (J : Join) : Kind → List UInt32
  | .build => J.left
  | .probe => J.right

/-- `count_left_keys_per_core`, `count_right_keys_per_core`. -/
def perCore (J : Join) (kind : Kind) : Nat :=
  tuplesPerCore (J.keys kind).length J.countCores

/-- `count_left_keys_for_core`, `count_right_keys_for_core`: the last core takes the rest. -/
def count (J : Join) (kind : Kind) (i : Nat) : Nat :=
  if i < J.countCores - 1 then J.perCore kind
  else (J.keys kind).length - (J.countCores - 1) * J.perCore kind

/-- `data[data_index]` of chunk `i`. -/
def data (J : Join) (kind : Kind) (i dataIndex : Nat) : Option UInt32 :=
  (J.keys kind)[i * J.perCore kind + dataIndex]?

/-- `PartitionTask::hash(key) % count_cores`. -/
def target (J : Join) (key : UInt32) : Nat := J.stdHash key % 2 ^ 16 % J.countCores

theorem target_lt (J : Join) (key : UInt32) : J.target key < J.countCores := Nat.mod_lt _ J.pos

/-- `offset + data_index`, with `offset = channel_id * _count`. -/
def rowId (J : Join) (kind : Kind) (i channel dataIndex : Nat) : Nat :=
  (channel * J.count kind i % 2 ^ 64 + dataIndex) % 2 ^ 64

/-- `emplace_back(offset + data_index, key)` of the task for the target of the key. -/
def emplaceBack (J : Join) (kind : Kind) (i channel dataIndex : Nat) (key : UInt32)
    (tasks : Nat → List Row) : List Row :=
  tasks (J.target key) ++ [⟨J.rowId kind i channel dataIndex, key⟩]

end Join

/-- `mx::util::vector`, as far as a result set uses it. -/
structure ResultSet where
  items : List (Nat × Nat)
  capacity : Nat
  deriving DecidableEq, Repr

/-- `emplace_back(item)`; `none` is a write behind the memory. -/
def ResultSet.emplaceBack (r : ResultSet) (item : Nat × Nat) : Option ResultSet :=
  let capacity := if r.items.length ≥ r.capacity then r.capacity * 2 else r.capacity
  if r.items.length < capacity then some ⟨r.items ++ [item], capacity⟩ else none

/-- `--x` of a 32-bit counter. -/
def pred32 (x : Nat) : Nat := (x + (2 ^ 32 - 1)) % 2 ^ 32

/-- What a channel is executing. -/
inductive Running where
  | idle
  /-- In the loop over the rows of chunk `index`; `tasks` are the batches that are not full. -/
  | partitioning (kind : Kind) (index dataIndex : Nat) (tasks : Nat → List Row)
  /-- In the last loop, in front of the spawn of the last batch. -/
  | flushing (kind : Kind) (target : Nat) (tasks : Nat → List Row)
  /-- In the last loop, in front of the spawn of the notification. -/
  | notifying (kind : Kind) (target : Nat) (tasks : Nat → List Row)
  /-- In a `BuildTask` or `ProbeTask` from channel `source`, with the rows that are left. -/
  | executing (kind : Kind) (source : Nat) (rows : List Row)
  /-- `pending_local` was decremented to 0. -/
  | notified (kind : Kind)
  /-- In `BuildFinishedNotifier`, in front of the spawn for `target`. -/
  | dispatching (target : Nat)
  /-- In `MergeTask`, in front of the result set of `channel`. -/
  | merging (channel : Nat)

/-- Where the tasks are that exist only once. -/
inductive Place where
  | notifier
  | dispatching (channel : Nat)
  | queued (source : Nat)
  | started
  deriving DecidableEq, Repr

/-- The queues by source and target, the channels, the two listeners, the tables and the
result sets; where the partition tasks and the merge task are, and the rows of
each source that each target has processed. -/
structure State where
  queues : Nat × Nat → List Task
  running : Nat → Running
  pendingLocal : Kind → Nat → Nat
  pendingGlobal : Kind → Nat
  tables : Nat → InlineHashtable
  resultSets : Nat → ResultSet
  countOutputTuples : Nat
  place : Task → Place
  processed : Kind → Nat → Nat → List Row

inductive Event where
  /-- A step of a channel that touches no counter. -/
  | step (channel : Nat)
  /-- `pending_local` of the channel is decremented for a notification from `source`. -/
  | notification (kind : Kind) (source channel : Nat)
  /-- `pending_global` is decremented. -/
  | decrement (kind : Kind) (channel : Nat)
  /-- `pending_global` is decremented to 0, and the notifier of the phase is invoked. -/
  | call (kind : Kind) (channel : Nat)
  deriving DecidableEq, Repr

namespace State

def set (s : State) (channel : Nat) (r : Running) : State :=
  { s with running := Function.update s.running channel r }

/-- `runtime::spawn`. -/
def spawn (s : State) (source target : Nat) (task : Task) : State :=
  { s with
    queues := Function.update s.queues (source, target) (s.queues (source, target) ++ [task]) }

/-- A task is taken from a queue. -/
def pop (s : State) (source target : Nat) (rest : List Task) : State :=
  { s with queues := Function.update s.queues (source, target) rest }

def move (s : State) (task : Task) (place : Place) : State :=
  { s with place := Function.update s.place task place }

/-- All probe partition tasks are moved. -/
def moveProbes (s : State) (place : Place) : State :=
  { s with
    place := fun task => match task with
      | .partition .probe _ => place
      | task => s.place task }

def setLocal (s : State) (kind : Kind) (channel value : Nat) : State :=
  { s with
    pendingLocal := fun k => if k = kind then Function.update (s.pendingLocal k) channel value
      else s.pendingLocal k }

def setGlobal (s : State) (kind : Kind) (value : Nat) : State :=
  { s with pendingGlobal := Function.update s.pendingGlobal kind value }

/-- A row is done. -/
def process (s : State) (kind : Kind) (source target : Nat) (row : Row) : State :=
  { s with
    processed := fun k c t => if k = kind ∧ c = source ∧ t = target then s.processed k c t ++ [row]
      else s.processed k c t }

/-- `Benchmark::start()`. -/
def initial (J : Join) : State where
  queues p := if p.1 = 0 ∧ p.2 < J.countCores then [.partition .build p.2] else []
  running _ := .idle
  pendingLocal _ channel := if channel < J.countCores then J.countCores else 0
  pendingGlobal _ := J.countCores
  tables _ := .construct J.tableBits
  resultSets _ := ⟨[], J.perCore .probe⟩
  countOutputTuples := 0
  place task := match task with
    | .partition .build i => if i < J.countCores then .queued 0 else .notifier
    | _ => .notifier
  processed _ _ _ := []

end State

/-- The steps of the channels. -/
inductive Step (J : Join) : State → Event → State → Prop where
  -- a channel takes a task
  | popPartition {s} (c t : Nat) (kind : Kind) (i : Nat) (rest : List Task) :
      s.running t = .idle → s.queues (c, t) = .partition kind i :: rest →
      Step J s (.step t) (((s.pop c t rest).set t (.partitioning kind i 0 fun _ => [])).move
        (.partition kind i) .started)
  | popBatch {s} (c t : Nat) (kind : Kind) (rows : List Row) (rest : List Task) :
      s.running t = .idle → s.queues (c, t) = .batch kind rows :: rest →
      Step J s (.step t) ((s.pop c t rest).set t (.executing kind c rows))
  | popNotification {s} (c t : Nat) (kind : Kind) (rest : List Task) :
      s.running t = .idle → s.queues (c, t) = .notification kind :: rest →
      Step J s (.notification kind c t)
        (((s.pop c t rest).setLocal kind t (pred32 (s.pendingLocal kind t))).set t
          (if pred32 (s.pendingLocal kind t) = 0 then .notified kind else .idle))
  | popMerge {s} (c t : Nat) (rest : List Task) :
      s.running t = .idle → s.queues (c, t) = .merge :: rest →
      Step J s (.step t) (((s.pop c t rest).set t (.merging 0)).move .merge .started)
  -- `PartitionTask::execute`
  | row {s} (c : Nat) (kind : Kind) (i j : Nat) (tasks : Nat → List Row) (key : UInt32) :
      s.running c = .partitioning kind i j tasks → j < J.count kind i →
      J.data kind i j = some key → (J.emplaceBack kind i c j key tasks).length ≠ J.batchSize →
      Step J s (.step c) (s.set c (.partitioning kind i ((j + 1) % 2 ^ 32)
        (Function.update tasks (J.target key) (J.emplaceBack kind i c j key tasks))))
  | rowSpawn {s} (c : Nat) (kind : Kind) (i j : Nat) (tasks : Nat → List Row) (key : UInt32) :
      s.running c = .partitioning kind i j tasks → j < J.count kind i →
      J.data kind i j = some key → (J.emplaceBack kind i c j key tasks).length = J.batchSize →
      Step J s (.step c) ((s.spawn c (J.target key)
        (.batch kind (J.emplaceBack kind i c j key tasks))).set c
          (.partitioning kind i ((j + 1) % 2 ^ 32) (Function.update tasks (J.target key) [])))
  | rowsDone {s} (c : Nat) (kind : Kind) (i j : Nat) (tasks : Nat → List Row) :
      s.running c = .partitioning kind i j tasks → ¬ j < J.count kind i →
      Step J s (.step c) (s.set c (.flushing kind 0 tasks))
  | flush {s} (c : Nat) (kind : Kind) (k : Nat) (tasks : Nat → List Row) :
      s.running c = .flushing kind k tasks → k < J.countCores →
      Step J s (.step c) ((s.spawn c k (.batch kind (tasks k))).set c (.notifying kind k tasks))
  | notify {s} (c : Nat) (kind : Kind) (k : Nat) (tasks : Nat → List Row) :
      s.running c = .notifying kind k tasks →
      Step J s (.step c) ((s.spawn c k (.notification kind)).set c (.flushing kind (k + 1) tasks))
  | flushed {s} (c : Nat) (kind : Kind) (k : Nat) (tasks : Nat → List Row) :
      s.running c = .flushing kind k tasks → ¬ k < J.countCores →
      Step J s (.step c) (s.set c .idle)
  -- `BuildTask::execute`
  | insert {s} (t c : Nat) (row : Row) (rows : List Row) (table : InlineHashtable) :
      s.running t = .executing .build c (row :: rows) →
      (s.tables t).insert row.key row.id = some table →
      Step J s (.step t) ({ (s.process .build c t row) with
        tables := Function.update s.tables t table }.set t (.executing .build c rows))
  -- `ProbeTask::execute`
  | hit {s} (t c : Nat) (row : Row) (rows : List Row) (value : Nat) (r : ResultSet) :
      s.running t = .executing .probe c (row :: rows) →
      (s.tables t).get row.key = some value → value ≠ maxValue →
      (s.resultSets t).emplaceBack (row.id, value) = some r →
      Step J s (.step t) ({ (s.process .probe c t row) with
        resultSets := Function.update s.resultSets t r }.set t (.executing .probe c rows))
  | miss {s} (t c : Nat) (row : Row) (rows : List Row) :
      s.running t = .executing .probe c (row :: rows) →
      (s.tables t).get row.key = some maxValue →
      Step J s (.step t) ((s.process .probe c t row).set t (.executing .probe c rows))
  | finish {s} (t : Nat) (kind : Kind) (c : Nat) :
      s.running t = .executing kind c [] → Step J s (.step t) (s.set t .idle)
  -- `NotificationTask::execute`, behind the local counter
  | decrement {s} (t : Nat) (kind : Kind) :
      s.running t = .notified kind → pred32 (s.pendingGlobal kind) ≠ 0 →
      Step J s (.decrement kind t) ((s.setGlobal kind (pred32 (s.pendingGlobal kind))).set t .idle)
  | callBuild {s} (t : Nat) :
      s.running t = .notified .build → pred32 (s.pendingGlobal .build) = 0 →
      Step J s (.call .build t)
        (((s.setGlobal .build 0).moveProbes (.dispatching t)).set t (.dispatching 0))
  | callProbe {s} (t : Nat) :
      s.running t = .notified .probe → pred32 (s.pendingGlobal .probe) = 0 →
      Step J s (.call .probe t)
        ((((s.setGlobal .probe 0).spawn t t .merge).move .merge (.queued t)).set t .idle)
  -- `BuildFinishedNotifier::operator()`
  | dispatch {s} (c k : Nat) : s.running c = .dispatching k → k < J.countCores →
      Step J s (.step c) (((s.spawn c k (.partition .probe k)).move (.partition .probe k)
        (.queued c)).set c (.dispatching (k + 1)))
  | dispatched {s} (c k : Nat) : s.running c = .dispatching k → ¬ k < J.countCores →
      Step J s (.step c) (s.set c .idle)
  -- `MergeTask::execute`
  | merge {s} (c k : Nat) : s.running c = .merging k → k < J.countCores →
      Step J s (.step c) ({ s with
        countOutputTuples := s.countOutputTuples + (s.resultSets k).items.length }.set c
          (.merging (k + 1)))
  | merged {s} (c k : Nat) : s.running c = .merging k → ¬ k < J.countCores →
      Step J s (.step c) (s.set c .idle)

end MxTasking.HashJoin
