import MxTasking.Util.CoreSet
import Mathlib.Data.List.Chain
import Mathlib.Data.List.Nodup

/-!
# The workers of a scheduler

The constructor and the destructor of `Scheduler`, and the calls of `runtime::init` that construct
and destroy schedulers.  `_worker` has an entry for each of `max_cores()` cores.  The constructor
sets the first ones to the workers it constructs, and the destructor walks over the whole table.

Memory of `GlobalHeap` is a block with a number of its own; the sizes and NUMA nodes are logged.
A scheduler is destroyed when `init` is called with another core set, after the new one has been
constructed, and at last with the static `_scheduler`.

## Main results

* `Built.constructWorker` — what the constructor has done after some workers.
* `destruct_of_full`, `destruct_of_lt` — what the destructor does.
* `round_returns`, `round_faults` — a call of `init`, by the scheduler it finds.
* `paired_iff` — workers are created and destroyed in pairs exactly if the schedulers that
  are destroyed have as many workers as their table has entries.
-/

namespace MxTasking.Tasking

open MxTasking.Memory.Fixed.ProcessorHeap (maxCores)
open MxTasking.Util (CoreSet)

/-! ## The program -/

/-- Memory that is taken from `GlobalHeap`, or given back to it. -/
structure Allocation where
  block : Nat
  size : Nat
  numaNodeId : Nat
  deriving DecidableEq, Repr

/-- A worker at a block of memory; `numaNodeId` is the one of its channel. -/
structure Worker where
  block : Nat
  id : Nat
  targetCoreId : Nat
  numaNodeId : Nat
  deriving DecidableEq, Repr

/-- What has been allocated, freed and destroyed, in this order. -/
structure Heap where
  next : Nat
  allocated : List Allocation
  freed : List Allocation
  destroyed : List Worker

/-- `Scheduler`, with a log of the workers it has constructed. -/
structure Scheduler where
  coreSet : CoreSet
  isRunning : Bool
  worker : List (Option Worker)
  channelNumaNodeMap : List Nat
  constructed : List Worker

/-- `GlobalHeap::allocate(numa_node_id, size)`. -/
def Heap.allocate (heap : Heap) (numaNodeId size : Nat) : Nat × Heap :=
  (heap.next,
    { heap with
      next := heap.next + 1
      allocated := heap.allocated ++ [⟨heap.next, size, numaNodeId⟩] })

namespace Scheduler

/-- The scheduler before the loop of the constructor. -/
def empty (coreSet : CoreSet) : Scheduler where
  coreSet := coreSet
  isRunning := false
  worker := List.replicate maxCores none
  channelNumaNodeMap := List.replicate maxCores 0
  constructed := []

variable (nodeId : Nat → Nat) (sizeofWorker : Nat)

/-- The body of the loop; `nodeId` is `topology::node_id`. -/
def constructWorker (s : Scheduler × Heap) (workerId : Nat) : Scheduler × Heap :=
  let coreId := s.1.coreSet.coreIdentifier workerId
  let channelNumaNodeMap := s.1.channelNumaNodeMap.set workerId (nodeId coreId % 2 ^ 8)
  let memory := s.2.allocate (channelNumaNodeMap.getD workerId 0) sizeofWorker
  -- the channel keeps its node in a byte again
  let worker := ⟨memory.1, workerId, coreId, channelNumaNodeMap.getD workerId 0 % 2 ^ 8⟩
  ({ s.1 with
      worker := s.1.worker.set workerId (some worker)
      channelNumaNodeMap := channelNumaNodeMap
      constructed := s.1.constructed ++ [worker] },
    memory.2)

/-- `Scheduler(core_set, …)`. -/
def construct (coreSet : CoreSet) (heap : Heap) : Scheduler × Heap :=
  (List.range coreSet.size).foldl (constructWorker nodeId sizeofWorker) (empty coreSet, heap)

/-- The body of the loop of the destructor; `none` for a null pointer that is dereferenced. -/
def destroyWorker (heap : Heap) : Option Worker → Option Heap
  | none => none
  | some worker =>
      some { heap with
        destroyed := heap.destroyed ++ [worker]
        freed := heap.freed ++ [⟨worker.block, sizeofWorker, worker.numaNodeId⟩] }

/-- `~Scheduler()`. -/
def destruct (s : Scheduler) (heap : Heap) : Option Heap :=
  s.worker.foldlM (destroyWorker sizeofWorker) heap

end Scheduler

/-- The static `_scheduler`, and the schedulers that are no more. -/
structure Runtime where
  scheduler : Option Scheduler
  heap : Heap
  gone : List Scheduler

/-- A core set that `init` is called with. -/
structure Cores extends CoreSet where
  nonempty : 0 < size
  fits : size ≤ maxCores

namespace Runtime

/-- Before the first call. -/
def initial : Runtime := ⟨none, ⟨0, [], [], []⟩, []⟩

variable (nodeId : Nat → Nat) (sizeofWorker : Nat)

/-- `init(core_set, …)`, with the value that is returned. -/
def init (s : Runtime) (coreSet : CoreSet) : Option (Bool × Runtime) :=
  match s.scheduler with
  | none =>
      let new := Scheduler.construct nodeId sizeofWorker coreSet s.heap
      some (true, { s with scheduler := some new.1, heap := new.2 })
  | some scheduler =>
      if scheduler.isRunning then some (false, s)
      else if scheduler.coreSet.notEqual coreSet then
        let new := Scheduler.construct nodeId sizeofWorker coreSet s.heap
        (scheduler.destruct sizeofWorker new.2).map fun heap =>
          (true, ⟨some new.1, heap, s.gone ++ [scheduler]⟩)
      else some (true, s)

/-- `start_and_wait()`: a thread for each worker, until the runtime has been stopped. -/
def startAndWait (s : Runtime) : Option Runtime :=
  match s.scheduler with
  | none => none
  | some scheduler =>
      if (List.range scheduler.coreSet.size).all fun channelId =>
        (scheduler.worker.getD channelId none).isSome
      then some { s with scheduler := some { scheduler with isRunning := false } }
      else none

/-- The end of the static `_scheduler`. -/
def exit (s : Runtime) : Option Runtime :=
  match s.scheduler with
  | none => some s
  | some scheduler =>
      (scheduler.destruct sizeofWorker s.heap).map fun heap =>
        ⟨none, heap, s.gone ++ [scheduler]⟩

/-- A call of `init`, and whether the runtime is started after it. -/
structure Round where
  cores : Cores
  started : Bool

def round (s : Runtime) (r : Round) : Option Runtime :=
  (s.init nodeId sizeofWorker r.cores.toCoreSet).bind fun result =>
    if r.started then result.2.startAndWait else some result.2

/-- All calls, and the end of the program. -/
def run (rounds : List Round) (exits : Bool) : Option Runtime :=
  (rounds.foldlM (round nodeId sizeofWorker) initial).bind fun s =>
    if exits then s.exit sizeofWorker else some s

end Runtime

/-! ## What is promised -/

/-- Every worker of a scheduler that is no more has been destroyed once, and its memory
has been given back as it was allocated; the others are untouched. -/
structure Paired (s : Runtime) : Prop where
  destroyed : ∀ scheduler ∈ s.gone, ∀ worker ∈ scheduler.constructed,
    s.heap.destroyed.count worker = 1
  alive : ∀ scheduler, s.scheduler = some scheduler → ∀ worker ∈ scheduler.constructed,
    worker ∉ s.heap.destroyed
  returned : ∀ scheduler ∈ s.gone, ∀ worker ∈ scheduler.constructed,
    ∃ allocation ∈ s.heap.allocated, allocation.block = worker.block ∧
      s.heap.freed.count allocation = 1 ∧
      ∀ freed ∈ s.heap.freed, freed.block = worker.block → freed = allocation
  distinct : (s.heap.allocated.map Allocation.block).Nodup

/-! ## Construction -/

/-- The memory of a worker. -/
def Worker.allocation (sizeofWorker : Nat) (worker : Worker) : Allocation :=
  ⟨worker.block, sizeofWorker, worker.numaNodeId⟩

namespace Scheduler

/-- The table of a scheduler with the workers of its core set. -/
structure Complete (s : Scheduler) (size : Nat) : Prop where
  length : s.constructed.length = size
  worker : s.worker = s.constructed.map some ++ List.replicate (maxCores - size) none
  idle : s.isRunning = false

/-- After the first `n` rounds of the loop. -/
structure Built (sizeofWorker : Nat) (coreSet : CoreSet) (heap : Heap) (n : Nat)
    (s : Scheduler × Heap) : Prop where
  coreSet : s.1.coreSet = coreSet
  complete : s.1.Complete n
  nodes : s.1.channelNumaNodeMap.length = maxCores
  blocks : s.1.constructed.map Worker.block = List.range' heap.next n
  heap : s.2 = { heap with
    next := heap.next + n
    allocated := heap.allocated ++ s.1.constructed.map (Worker.allocation sizeofWorker) }

section Construct

variable {nodeId : Nat → Nat} {sizeofWorker n : Nat} {coreSet : CoreSet} {heap : Heap}
  {s : Scheduler × Heap}

/-- The first slot without a worker. -/
theorem replicate_slots (hn : n < maxCores) :
    List.replicate (maxCores - n) (none : Option Worker) =
      none :: List.replicate (maxCores - (n + 1)) none := by
  rw [show maxCores - n = maxCores - (n + 1) + 1 by omega, List.replicate_succ]

theorem Built.empty (sizeofWorker : Nat) (coreSet : CoreSet) (heap : Heap) :
    Built sizeofWorker coreSet heap 0 (Scheduler.empty coreSet, heap) where
  coreSet := rfl
  complete := ⟨rfl, rfl, rfl⟩
  nodes := List.length_replicate
  blocks := rfl
  heap := by simp [Scheduler.empty]

theorem Built.constructWorker (h : Built sizeofWorker coreSet heap n s) (hn : n < maxCores) :
    Built sizeofWorker coreSet heap (n + 1)
      (Scheduler.constructWorker nodeId sizeofWorker s n) := by
  have hNode (node : Nat) : (s.1.channelNumaNodeMap.set n node).getD n 0 = node := by
    rw [List.getD_eq_getElem?_getD, List.getElem?_set_self (by rw [h.nodes]; exact hn)]
    rfl
  have hNext : s.2.next = heap.next + n := by rw [h.heap]
  refine ⟨h.coreSet, ⟨?_, ?_, h.complete.idle⟩, ?_, ?_, ?_⟩
  · show (_ ++ [_]).length = _
    rw [List.length_append, h.complete.length, List.length_singleton]
  · show s.1.worker.set n (some _) = (_ ++ [_]).map some ++ _
    have hLength : (s.1.constructed.map some).length = n := by
      rw [List.length_map, h.complete.length]
    rw [h.complete.worker, replicate_slots hn, List.set_append_right _ _ (Nat.le_of_eq hLength),
      hLength, Nat.sub_self, List.set_cons_zero, List.map_append, List.append_assoc]
    rfl
  · show (s.1.channelNumaNodeMap.set n _).length = _
    rw [List.length_set, h.nodes]
  · show (_ ++ [_]).map Worker.block = _
    rw [List.map_append, h.blocks, List.range'_concat]
    show _ ++ [s.2.next] = _
    rw [hNext, Nat.one_mul]
  · show (s.2.allocate _ _).2 = _
    simp only [Scheduler.constructWorker, hNode, Nat.mod_mod, List.map_append]
    rw [Heap.allocate, h.heap]
    simp [Worker.allocation, Nat.add_assoc]

/-- What the constructor has done. -/
theorem built_construct (nodeId : Nat → Nat) (sizeofWorker : Nat) (cores : Cores) (heap : Heap) :
    Built sizeofWorker cores.toCoreSet heap cores.size
      (construct nodeId sizeofWorker cores.toCoreSet heap) := by
  have hLoop (n : Nat) (hn : n ≤ maxCores) : Built sizeofWorker cores.toCoreSet heap n
      ((List.range n).foldl (Scheduler.constructWorker nodeId sizeofWorker)
        (Scheduler.empty cores.toCoreSet, heap)) := by
    induction n with
    | zero => exact Built.empty sizeofWorker cores.toCoreSet heap
    | succ n ih =>
        rw [List.range_succ, List.foldl_append]
        exact (ih (Nat.le_of_succ_le hn)).constructWorker hn
  exact hLoop cores.size cores.fits

end Construct

/-! ## Destruction -/

section Destruct

variable {sizeofWorker size : Nat} {s : Scheduler}

theorem foldlM_destroyWorker (sizeofWorker : Nat) (workers : List Worker) (heap : Heap) :
    (workers.map some).foldlM (destroyWorker sizeofWorker) heap = some { heap with
      destroyed := heap.destroyed ++ workers
      freed := heap.freed ++ workers.map (Worker.allocation sizeofWorker) } := by
  induction workers generalizing heap with
  | nil => simp
  | cons worker workers ih =>
      rw [List.map_cons, List.foldlM_cons]
      show (workers.map some).foldlM (destroyWorker sizeofWorker) _ = _
      rw [ih]
      simp [Worker.allocation]

/-- Every entry of the table has a worker. -/
theorem destruct_of_full (h : s.Complete maxCores) (heap : Heap) :
    s.destruct sizeofWorker heap = some { heap with
      destroyed := heap.destroyed ++ s.constructed
      freed := heap.freed ++ s.constructed.map (Worker.allocation sizeofWorker) } := by
  rw [destruct, h.worker, Nat.sub_self, List.replicate_zero, List.append_nil]
  exact foldlM_destroyWorker sizeofWorker s.constructed heap

/-- The first entry without a worker is dereferenced. -/
theorem destruct_of_lt (h : s.Complete size) (hSize : size < maxCores) (heap : Heap) :
    s.destruct sizeofWorker heap = none := by
  rw [destruct, h.worker, replicate_slots hSize, List.foldlM_append, foldlM_destroyWorker]
  rfl

end Destruct

end Scheduler

/-! ## The calls -/

namespace Runtime

/-- The workers that have been constructed. -/
def workers (s : Runtime) : List Worker :=
  (s.gone ++ s.scheduler.toList).flatMap Scheduler.constructed

/-- Between two calls. -/
structure Inv (sizeofWorker : Nat) (s : Runtime) : Prop where
  complete : ∀ scheduler, s.scheduler = some scheduler →
    scheduler.Complete scheduler.coreSet.size
  fits : ∀ scheduler, s.scheduler = some scheduler → scheduler.coreSet.size ≤ maxCores
  blocks : s.workers.map Worker.block = List.range s.heap.next
  allocated : s.heap.allocated = s.workers.map (Worker.allocation sizeofWorker)
  destroyed : s.heap.destroyed = s.gone.flatMap Scheduler.constructed
  freed : s.heap.freed = s.heap.destroyed.map (Worker.allocation sizeofWorker)

section Calls

variable {nodeId : Nat → Nat} {sizeofWorker : Nat} {s t : Runtime} {scheduler : Scheduler}
  {cores : Cores} {heap : Heap}

theorem Inv.initial (sizeofWorker : Nat) : Inv sizeofWorker initial :=
  ⟨nofun, nofun, rfl, rfl, rfl, rfl⟩

/-- The workers are those of `gone` and the scheduler. -/
theorem workers_of_none (hs : s.scheduler = none) :
    s.gone.flatMap Scheduler.constructed = s.workers := by
  rw [workers, hs, Option.toList_none, List.append_nil]

theorem workers_of_some (hs : s.scheduler = some scheduler) :
    (s.gone ++ [scheduler]).flatMap Scheduler.constructed = s.workers := by
  rw [workers, hs, Option.toList_some]

/-- What is promised follows. -/
theorem Inv.paired (h : Inv sizeofWorker s) : Paired s := by
  have hBlocks : (s.workers.map Worker.block).Nodup := h.blocks ▸ List.nodup_range
  have hNodup : s.workers.Nodup := hBlocks.of_map _
  have hSplit : s.workers =
      s.heap.destroyed ++ s.scheduler.toList.flatMap Scheduler.constructed := by
    rw [workers, List.flatMap_append, h.destroyed]
  have hDestroyed : ∀ x ∈ s.gone, ∀ worker ∈ x.constructed, worker ∈ s.heap.destroyed := by
    intro x hx worker hWorker
    rw [h.destroyed]
    exact List.mem_flatMap.mpr ⟨x, hx, hWorker⟩
  have hDestroyedNodup : s.heap.destroyed.Nodup := (List.nodup_append.mp (hSplit ▸ hNodup)).1
  have hSame {a b : Worker} (ha : a ∈ s.heap.destroyed) (hb : b ∈ s.heap.destroyed)
      (hEq : a.block = b.block) : a = b :=
    List.inj_on_of_nodup_map hBlocks (hSplit ▸ List.mem_append_left _ ha)
      (hSplit ▸ List.mem_append_left _ hb) hEq
  refine ⟨fun x hx worker hWorker => ?_, fun x hx worker hWorker hMem => ?_,
    fun x hx worker hWorker => ?_, ?_⟩
  · exact List.count_eq_one_of_mem hDestroyedNodup (hDestroyed x hx worker hWorker)
  · have hDisjoint := (List.nodup_append.mp (hSplit ▸ hNodup)).2.2 worker hMem worker
    refine hDisjoint ?_ rfl
    rw [hx]
    exact List.mem_flatMap.mpr ⟨x, List.mem_singleton_self x, hWorker⟩
  · have hMem := hDestroyed x hx worker hWorker
    refine ⟨worker.allocation sizeofWorker, ?_, rfl, ?_, fun freed hFreed hBlock => ?_⟩
    · rw [h.allocated]
      exact List.mem_map_of_mem (hSplit ▸ List.mem_append_left _ hMem)
    · rw [h.freed]
      refine List.count_eq_one_of_mem ?_ (List.mem_map_of_mem hMem)
      exact hDestroyedNodup.map_on fun a ha b hb hEq =>
        hSame ha hb (congrArg Allocation.block hEq)
    · rw [h.freed] at hFreed
      obtain ⟨other, hOther, rfl⟩ := List.mem_map.mp hFreed
      rw [hSame hOther hMem hBlock]
  · rw [h.allocated, List.map_map]
    exact hBlocks

/-- A scheduler is constructed, and `gone` are those that are no more after it. -/
theorem Inv.constructed (h : Inv sizeofWorker s) (cores : Cores) {gone : List Scheduler}
    (hGone : gone.flatMap Scheduler.constructed = s.workers)
    (hNew : t.scheduler =
      some (Scheduler.construct nodeId sizeofWorker cores.toCoreSet s.heap).1)
    (htGone : t.gone = gone)
    (hNext : t.heap.next =
      (Scheduler.construct nodeId sizeofWorker cores.toCoreSet s.heap).2.next)
    (hAllocated : t.heap.allocated =
      (Scheduler.construct nodeId sizeofWorker cores.toCoreSet s.heap).2.allocated)
    (hDestroyed : t.heap.destroyed = gone.flatMap Scheduler.constructed)
    (hFreed : t.heap.freed = t.heap.destroyed.map (Worker.allocation sizeofWorker)) :
    Inv sizeofWorker t := by
  have hBuilt := Scheduler.built_construct nodeId sizeofWorker cores s.heap
  have hWorkers : t.workers = s.workers ++
      (Scheduler.construct nodeId sizeofWorker cores.toCoreSet s.heap).1.constructed := by
    rw [workers, hNew, htGone, List.flatMap_append, hGone]
    simp
  refine ⟨fun x hx => ?_, fun x hx => ?_, ?_, ?_, htGone ▸ hDestroyed, hFreed⟩
  · obtain rfl := Option.some.inj (hNew.symm.trans hx)
    rw [hBuilt.coreSet]
    exact hBuilt.complete
  · obtain rfl := Option.some.inj (hNew.symm.trans hx)
    rw [hBuilt.coreSet]
    exact cores.fits
  · rw [hWorkers, List.map_append, h.blocks, hBuilt.blocks, hNext, hBuilt.heap,
      List.range_eq_range', List.range_eq_range', ← List.range'_append_1, Nat.zero_add]
  · rw [hAllocated, hBuilt.heap, hWorkers, List.map_append, h.allocated]

/-- The first call. -/
theorem init_of_none (h : Inv sizeofWorker s) (hs : s.scheduler = none) (cores : Cores) :
    ∃ t, s.init nodeId sizeofWorker cores.toCoreSet = some (true, t) ∧ Inv sizeofWorker t ∧
      ∃ x, t.scheduler = some x ∧ x.coreSet = cores.toCoreSet := by
  have hBuilt := Scheduler.built_construct nodeId sizeofWorker cores s.heap
  refine ⟨_, by rw [init, hs], ?_, _, rfl, hBuilt.coreSet⟩
  refine h.constructed cores (workers_of_none hs) rfl rfl rfl rfl ?_ ?_
  · show (Scheduler.construct _ _ _ _).2.destroyed = _
    rw [hBuilt.heap, h.destroyed]
  · show (Scheduler.construct _ _ _ _).2.freed = (Scheduler.construct _ _ _ _).2.destroyed.map _
    rw [hBuilt.heap, h.freed]

/-- A call with the core set of the scheduler. -/
theorem init_of_equal (h : Inv sizeofWorker s) (hs : s.scheduler = some scheduler)
    (hEqual : scheduler.coreSet.notEqual cores.toCoreSet = false) :
    s.init nodeId sizeofWorker cores.toCoreSet = some (true, s) := by
  simp only [init, hs, (h.complete scheduler hs).idle, hEqual, Bool.false_eq_true, if_false]

/-- A call with another core set. -/
theorem init_of_notEqual (h : Inv sizeofWorker s) (hs : s.scheduler = some scheduler)
    (hNotEqual : scheduler.coreSet.notEqual cores.toCoreSet = true) :
    s.init nodeId sizeofWorker cores.toCoreSet =
      (scheduler.destruct sizeofWorker
        (Scheduler.construct nodeId sizeofWorker cores.toCoreSet s.heap).2).map fun heap =>
          (true, ⟨some (Scheduler.construct nodeId sizeofWorker cores.toCoreSet s.heap).1, heap,
            s.gone ++ [scheduler]⟩) := by
  simp only [init, hs, (h.complete scheduler hs).idle, hNotEqual, Bool.false_eq_true, if_false,
    if_true]

/-- The scheduler is replaced, and its table is full. -/
theorem init_of_full (h : Inv sizeofWorker s) (hs : s.scheduler = some scheduler)
    (hNotEqual : scheduler.coreSet.notEqual cores.toCoreSet = true)
    (hFull : scheduler.coreSet.size = maxCores) :
    ∃ t, s.init nodeId sizeofWorker cores.toCoreSet = some (true, t) ∧ Inv sizeofWorker t ∧
      ∃ x, t.scheduler = some x ∧ x.coreSet = cores.toCoreSet := by
  have hBuilt := Scheduler.built_construct nodeId sizeofWorker cores s.heap
  have hDestroyed : s.heap.destroyed ++ scheduler.constructed =
      (s.gone ++ [scheduler]).flatMap Scheduler.constructed := by
    rw [h.destroyed, List.flatMap_append, List.flatMap_singleton]
  rw [init_of_notEqual h hs hNotEqual,
    Scheduler.destruct_of_full (hFull ▸ h.complete scheduler hs)]
  refine ⟨_, rfl, ?_, _, rfl, hBuilt.coreSet⟩
  refine h.constructed cores (workers_of_some hs) rfl rfl rfl rfl ?_ ?_
  · show (Scheduler.construct _ _ _ _).2.destroyed ++ _ = _
    rw [hBuilt.heap, hDestroyed]
  · show (Scheduler.construct _ _ _ _).2.freed ++ _ =
      ((Scheduler.construct _ _ _ _).2.destroyed ++ _).map _
    rw [hBuilt.heap, List.map_append, h.freed]

/-- A run finds all its workers. -/
theorem startAndWait_eq (h : Inv sizeofWorker s) (hs : s.scheduler = some scheduler) :
    s.startAndWait = some s := by
  have hComplete := h.complete scheduler hs
  have hWorkers : ((List.range scheduler.coreSet.size).all fun channelId =>
      (scheduler.worker.getD channelId none).isSome) = true := by
    refine List.all_eq_true.mpr fun channelId hChannel => ?_
    have hLess : channelId < (scheduler.constructed.map some).length := by
      rw [List.length_map, hComplete.length]
      exact List.mem_range.mp hChannel
    rw [hComplete.worker, List.getD_eq_getElem?_getD, List.getElem?_append_left hLess,
      List.getElem?_eq_getElem hLess, List.getElem_map]
    rfl
  have hIdle : { scheduler with isRunning := false } = scheduler := by
    rw [← hComplete.idle]
  simp only [startAndWait, hs, hWorkers, if_true, hIdle]
  rw [← hs]

/-- A round whose call of `init` has returned. -/
theorem round_of_init {r : Round} (h : Inv sizeofWorker t) (hs : t.scheduler = some scheduler)
    (hInit : s.init nodeId sizeofWorker r.cores.toCoreSet = some (true, t)) :
    s.round nodeId sizeofWorker r = some t := by
  rw [round, hInit]
  show (if r.started then t.startAndWait else some t) = some t
  by_cases hStarted : r.started = true
  · rw [if_pos hStarted, startAndWait_eq h hs]
  · rw [if_neg hStarted]

/-! ## All calls -/

/-- A scheduler that the next call destroys has a worker for every entry of its table. -/
def Replaceable (r next : Round) : Prop :=
  r.cores.notEqual next.cores.toCoreSet = true → r.cores.size = maxCores

/-- The scheduler is the one of the last round. -/
def Current (s : Runtime) (last : Option Round) : Prop :=
  match last with
  | none => s.scheduler = none
  | some r => ∃ x, s.scheduler = some x ∧ x.coreSet.notEqual r.cores.toCoreSet = false

theorem round_returns {last : Option Round} (h : Inv sizeofWorker s) (hCurrent : Current s last)
    (r : Round) (hLast : ∀ a ∈ last, Replaceable a r) :
    ∃ t, s.round nodeId sizeofWorker r = some t ∧ Inv sizeofWorker t ∧ Current t (some r) := by
  cases last with
  | none =>
      obtain ⟨t, hInit, hInv, x, hx, hCores⟩ := init_of_none h hCurrent r.cores
      exact ⟨t, round_of_init hInv hx hInit, hInv, x, hx, hCores ▸ CoreSet.notEqual_self _⟩
  | some a =>
      obtain ⟨x, hx, hSame⟩ := hCurrent
      cases hNotEqual : x.coreSet.notEqual r.cores.toCoreSet with
      | false => exact ⟨s, round_of_init h hx (init_of_equal h hx hNotEqual), h, x, hx, hNotEqual⟩
      | true =>
          have hFull : x.coreSet.size = maxCores := by
            rw [CoreSet.size_eq_of_notEqual hSame]
            exact hLast a rfl (CoreSet.notEqual_congr hSame _ ▸ hNotEqual)
          obtain ⟨t, hInit, hInv, y, hy, hCores⟩ := init_of_full h hx hNotEqual hFull
          exact ⟨t, round_of_init hInv hy hInit, hInv, y, hy, hCores ▸ CoreSet.notEqual_self _⟩

/-- A scheduler with an empty entry is replaced. -/
theorem round_faults (nodeId : Nat → Nat) {a r : Round} (h : Inv sizeofWorker s)
    (hCurrent : Current s (some a)) (hLast : ¬ Replaceable a r) :
    s.round nodeId sizeofWorker r = none := by
  obtain ⟨x, hx, hSame⟩ := hCurrent
  obtain ⟨hNotEqual, hSize⟩ := Classical.not_imp.mp hLast
  rw [← CoreSet.notEqual_congr hSame] at hNotEqual
  rw [← CoreSet.size_eq_of_notEqual hSame] at hSize
  have hLess : x.coreSet.size < maxCores := Nat.lt_of_le_of_ne (h.fits x hx) hSize
  rw [round, init_of_notEqual h hx hNotEqual,
    Scheduler.destruct_of_lt (h.complete x hx) hLess]
  rfl

theorem rounds_return (nodeId : Nat → Nat) (sizeofWorker : Nat) (rounds : List Round)
    (hChain : rounds.IsChain Replaceable) :
    ∃ s, rounds.foldlM (round nodeId sizeofWorker) initial = some s ∧ Inv sizeofWorker s ∧
      Current s rounds.getLast? := by
  induction rounds using List.reverseRecOn with
  | nil => exact ⟨initial, rfl, Inv.initial sizeofWorker, rfl⟩
  | append_singleton rounds r ih =>
      obtain ⟨hRounds, -, hLast⟩ := List.isChain_append.mp hChain
      obtain ⟨s, hLoop, hInv, hCurrent⟩ := ih hRounds
      obtain ⟨t, hRound, hInv', hCurrent'⟩ :=
        round_returns hInv hCurrent r fun a ha => hLast a ha r rfl
      refine ⟨t, ?_, hInv', ?_⟩
      · rw [List.foldlM_append, hLoop]
        show (s.round nodeId sizeofWorker r >>= fun t => some t) = some t
        rw [hRound]
        rfl
      · rw [List.getLast?_concat]
        exact hCurrent'

theorem isChain_of_rounds (nodeId : Nat → Nat) (sizeofWorker : Nat) (rounds : List Round)
    (hRounds : (rounds.foldlM (round nodeId sizeofWorker) initial).isSome) :
    rounds.IsChain Replaceable := by
  induction rounds using List.reverseRecOn with
  | nil => exact List.IsChain.nil
  | append_singleton rounds r ih =>
      rw [List.foldlM_append] at hRounds
      have hChain : rounds.IsChain Replaceable := by
        refine ih ?_
        cases hLoop : rounds.foldlM (round nodeId sizeofWorker) initial with
        | none => rw [hLoop] at hRounds; exact hRounds
        | some s => rfl
      obtain ⟨s, hLoop, hInv, hCurrent⟩ := rounds_return nodeId sizeofWorker rounds hChain
      refine List.isChain_append.mpr ⟨hChain, List.IsChain.singleton r, ?_⟩
      intro a ha next hNext
      obtain rfl := Option.some.inj hNext
      by_contra hReplaceable
      rw [Option.mem_def.mp ha] at hCurrent
      have hFault := round_faults nodeId hInv hCurrent hReplaceable
      rw [hLoop] at hRounds
      change (s.round nodeId sizeofWorker r >>= fun t => some t).isSome = true at hRounds
      rw [hFault] at hRounds
      exact absurd hRounds Bool.false_ne_true

/-- The last scheduler is destroyed, and its table is full. -/
theorem exit_returns {last : Option Round} (h : Inv sizeofWorker s) (hCurrent : Current s last)
    (hLast : ∀ r ∈ last, r.cores.size = maxCores) :
    ∃ t, s.exit sizeofWorker = some t ∧ Inv sizeofWorker t := by
  cases last with
  | none =>
      have hs : s.scheduler = none := hCurrent
      exact ⟨s, by rw [exit, hs], h⟩
  | some r =>
      obtain ⟨x, hx, hSame⟩ := hCurrent
      have hFull : x.coreSet.size = maxCores :=
        (CoreSet.size_eq_of_notEqual hSame).trans (hLast r rfl)
      have hExit : s.exit sizeofWorker =
          (x.destruct sizeofWorker s.heap).map fun heap => ⟨none, heap, s.gone ++ [x]⟩ := by
        rw [exit, hx]
      rw [hExit, Scheduler.destruct_of_full (hFull ▸ h.complete x hx)]
      have hWorkers (heap : Heap) : workers ⟨none, heap, s.gone ++ [x]⟩ = s.workers :=
        (workers_of_none rfl).symm.trans (workers_of_some hx)
      refine ⟨_, rfl, nofun, nofun, ?_, ?_, ?_, ?_⟩
      · rw [hWorkers]
        exact h.blocks
      · rw [hWorkers]
        exact h.allocated
      · rw [h.destroyed, List.flatMap_append, List.flatMap_singleton]
      · rw [h.freed, List.map_append]

/-- A scheduler with an empty entry is destroyed. -/
theorem exit_faults {r : Round} (h : Inv sizeofWorker s) (hCurrent : Current s (some r))
    (hLast : r.cores.size ≠ maxCores) : s.exit sizeofWorker = none := by
  obtain ⟨x, hx, hSame⟩ := hCurrent
  have hLess : x.coreSet.size < maxCores := by
    rw [CoreSet.size_eq_of_notEqual hSame]
    exact Nat.lt_of_le_of_ne r.cores.fits hLast
  rw [exit, hx]
  show (x.destruct sizeofWorker s.heap).map _ = none
  rw [Scheduler.destruct_of_lt (h.complete x hx) hLess]
  rfl

end Calls

/-- The calls of `init`, and the end of the program where it comes to it, dereference no empty entry
and destroy the workers in pairs with their construction, exactly if every scheduler that is
replaced or destroyed has `max_cores()` cores. -/
theorem paired_iff (nodeId : Nat → Nat) (sizeofWorker : Nat) (rounds : List Round)
    (exits : Bool) :
    (∃ s, run nodeId sizeofWorker rounds exits = some s ∧ Paired s) ↔
      rounds.IsChain (fun r next => r.cores.notEqual next.cores.toCoreSet = true →
        r.cores.size = maxCores) ∧
      (exits = true → ∀ r ∈ rounds.getLast?, r.cores.size = maxCores) := by
  constructor
  · rintro ⟨s, hRun, -⟩
    have hChain : rounds.IsChain Replaceable := by
      refine isChain_of_rounds nodeId sizeofWorker rounds ?_
      cases hLoop : rounds.foldlM (round nodeId sizeofWorker) initial with
      | none =>
          rw [run, hLoop] at hRun
          cases hRun
      | some t => rfl
    obtain ⟨t, hLoop, hInv, hCurrent⟩ := rounds_return nodeId sizeofWorker rounds hChain
    refine ⟨hChain, fun hExits r hr => ?_⟩
    by_contra hSize
    rw [Option.mem_def.mp hr] at hCurrent
    rw [run, hLoop, hExits] at hRun
    change t.exit sizeofWorker = some s at hRun
    rw [exit_faults hInv hCurrent hSize] at hRun
    cases hRun
  · rintro ⟨hChain, hLast⟩
    obtain ⟨s, hLoop, hInv, hCurrent⟩ := rounds_return nodeId sizeofWorker rounds hChain
    cases exits with
    | false => exact ⟨s, by rw [run, hLoop]; rfl, hInv.paired⟩
    | true =>
        obtain ⟨t, hExit, hInv'⟩ := exit_returns hInv hCurrent (hLast rfl)
        refine ⟨t, ?_, hInv'.paired⟩
        rw [run, hLoop]
        exact hExit

/-- The cores from 0 on, on one node. -/
def firstCores (size : Nat) (hPos : 0 < size) (hFits : size ≤ maxCores) : Cores where
  coreIdentifier core := if core < size then core else 0
  size := size
  numaNodes node := node == 0
  nonempty := hPos
  fits := hFits

/-- One core, and then two: the entry after the only worker of the first scheduler
is dereferenced. -/
theorem empty_entry_dereferenced :
    ¬ ∃ s, run (fun _ => 0) 64
      [⟨firstCores 1 (by decide) (by decide), true⟩, ⟨firstCores 2 (by decide) (by decide), true⟩]
      false = some s ∧ Paired s := by
  rintro ⟨s, hRun, -⟩
  cases hRun

end Runtime

end MxTasking.Tasking
