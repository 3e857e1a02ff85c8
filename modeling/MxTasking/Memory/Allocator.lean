import MxTasking.Memory.AlignmentHelper
import MxTasking.Memory.BlockTiling

/-!
# The allocator of dynamic sizes

The rest of `dynamic_size_allocator.cpp`: an `Allocator` keeps a list of blocks for each
NUMA node.  A request goes to the last block of its node, and new blocks are made until one
can serve it; `free` looks the block up by the id in the header; `defragment` and the
re-initialisation in `runtime::init` give the blocks back that say they are free.

The operating system's heap is outside the repository.  Its answers are part of the input: each
operation that makes a block gets the address of the block's memory, and `Fresh` is what the
heap promises of it.

A call of `allocate` may make any number of blocks.  One step of the system is one
round of its loop: `back().allocate` succeeds, or a block is made and the loop goes on
(`allocate_run` puts them together).
-/

namespace MxTasking.Memory

open MxTasking.Verified
open AlignmentHelper.SizeT (nextMultiple)

/-- `Allocator`: the blocks and the next block id of each NUMA node. -/
structure Allocator where
  blocks : UInt8 → List AllocationBlock
  nextAllocationId : UInt8 → UInt32

namespace Allocator

/-- `allocate_new_block(…)`, by the thread that sets the flag. -/
def allocateNewBlock (a : Allocator) (numaNodeId : UInt8) (size base : Nat) : Allocator :=
  { blocks := Function.update a.blocks numaNodeId (a.blocks numaNodeId ++
      [AllocationBlock.construct (a.nextAllocationId numaNodeId) numaNodeId size base])
    nextAllocationId :=
      Function.update a.nextAllocationId numaNodeId (a.nextAllocationId numaNodeId + 1) }

/-- `allocation_blocks.back().allocate(alignment, size)`. -/
def allocateBack (a : Allocator) (numaNodeId : UInt8) (alignment size : Nat) :
    Allocator × Option (Nat × AllocatedHeader) :=
  match (a.blocks numaNodeId).getLast? with
  | none => (a, none)
  | some back =>
      let result := back.allocate alignment size
      ({ a with
          blocks := Function.update a.blocks numaNodeId
            ((a.blocks numaNodeId).dropLast ++ [result.1]) },
        result.2)

/-- The size of a new block for a request: `1UL << 28U`, or more. -/
def sizeToAlloc (size : Nat) : Nat := max (2 ^ 28) (nextMultiple size 64)

/-- The `while` loop of `allocate`; `bases` are the addresses the heap returns, and the loop
is still running when they are used up. -/
def allocateLoop (a : Allocator) (numaNodeId : UInt8) (alignment size : Nat) :
    List Nat → Allocator × Option (Nat × AllocatedHeader)
  | [] => (a, none)
  | base :: bases =>
      let grown := a.allocateNewBlock numaNodeId (sizeToAlloc size) base
      match grown.allocateBack numaNodeId alignment size with
      | (a', some memory) => (a', some memory)
      | (a', none) => allocateLoop a' numaNodeId alignment size bases

/-- `allocate(numa_node_id, alignment, size)`. -/
def allocate (a : Allocator) (numaNodeId : UInt8) (alignment size : Nat) (bases : List Nat) :
    Allocator × Option (Nat × AllocatedHeader) :=
  match a.allocateBack numaNodeId alignment size with
  | (a', some memory) => (a', some memory)
  | (a', none) => allocateLoop a' numaNodeId alignment size bases

/-- The loop of `free`: the first block with the id of the header. -/
def freeIn (headerAddress : Nat) (header : AllocatedHeader) :
    List AllocationBlock → List AllocationBlock
  | [] => []
  | block :: rest =>
      if header.allocationBlockId = block.id then block.free headerAddress header :: rest
      else block :: freeIn headerAddress header rest

/-- `free(pointer)`, with the header found in front of the pointer. -/
def free (a : Allocator) (headerAddress : Nat) (header : AllocatedHeader) : Allocator :=
  { a with
    blocks := Function.update a.blocks header.numaNodeId
      (freeIn headerAddress header (a.blocks header.numaNodeId)) }

/-- The size of the blocks `initialize_empty` makes. -/
def initialSize : Nat := 4096 * 4096

/-- `initialize_empty()`: a block for each node that has none. -/
def initializeEmpty (maxNodeId : UInt8) (a : Allocator) (bases : UInt8 → Nat) : Allocator :=
  { blocks := fun i =>
      if i ≤ maxNodeId ∧ a.blocks i = [] then
        [AllocationBlock.construct (a.nextAllocationId i) i initialSize (bases i)]
      else a.blocks i
    nextAllocationId := fun i =>
      if i ≤ maxNodeId ∧ a.blocks i = [] then a.nextAllocationId i + 1
      else a.nextAllocationId i }

/-- The first loop of `defragment`: the blocks that are free are removed. -/
def removeFree (maxNodeId : UInt8) (a : Allocator) : Allocator :=
  { a with
    blocks := fun i =>
      if i ≤ maxNodeId then (a.blocks i).filter (fun block => !block.isFree) else a.blocks i }

/-- `defragment()`. -/
def defragment (maxNodeId : UInt8) (a : Allocator) (bases : UInt8 → Nat) : Allocator :=
  initializeEmpty maxNodeId (a.removeFree maxNodeId) bases

/-- `is_free()`. -/
def isFree (maxNodeId : UInt8) (a : Allocator) : Bool :=
  (List.range (maxNodeId.toNat + 1)).all fun i =>
    (a.blocks (UInt8.ofNat i)).all AllocationBlock.isFree

/-- `release_allocated_memory()`. -/
def releaseAllocatedMemory (maxNodeId : UInt8) (a : Allocator) : Allocator :=
  { blocks := fun i => if i ≤ maxNodeId then [] else a.blocks i
    nextAllocationId := fun i => if i ≤ maxNodeId then 0 else a.nextAllocationId i }

/-- What `runtime::init` does to an allocator that exists already. -/
def reinit (maxNodeId : UInt8) (a : Allocator) (bases : UInt8 → Nat) : Allocator :=
  if a.isFree maxNodeId then
    initializeEmpty maxNodeId (a.releaseAllocatedMemory maxNodeId) bases
  else a.defragment maxNodeId bases

/-- The constructor. -/
def construct (maxNodeId : UInt8) (bases : UInt8 → Nat) : Allocator :=
  initializeEmpty maxNodeId ⟨fun _ => [], fun _ => 0⟩ bases

/-! ## The system -/

/-- `size` bytes at `base` that overlap no block. -/
def Fresh (blocks : UInt8 → List AllocationBlock) (base size : Nat) : Prop :=
  base + size < 2 ^ 64 ∧ ∀ i, ∀ b ∈ blocks i,
    base + size ≤ b.allocatedBlock ∨ b.allocatedBlock + b.size ≤ base

/-- The addresses for the nodes without a block overlap neither a block nor one another. -/
def FreshBases (maxNodeId : UInt8) (blocks : UInt8 → List AllocationBlock)
    (bases : UInt8 → Nat) : Prop :=
  ∀ i, i ≤ maxNodeId → blocks i = [] → Fresh blocks (bases i) initialSize ∧
    ∀ j, j ≤ maxNodeId → blocks j = [] → i ≠ j →
      bases i + initialSize ≤ bases j ∨ bases j + initialSize ≤ bases i

/-- The allocator, the headers in memory and the live allocations. -/
structure State where
  allocator : Allocator
  memory : HeaderMemory
  live : List Allocation

inductive Event where
  | allocate (numaNodeId : UInt8) (alignment size : Nat)
  | grow (numaNodeId : UInt8) (alignment size base : Nat)
  | free (o : Allocation)
  | write (address length : Nat)
  | defragment (bases : UInt8 → Nat)
  | reinit (bases : UInt8 → Nat)

/-- The bytes from `address` on that somebody may write to: within the size of a live
allocation, or in no block. -/
def MayWrite (s : State) (address length : Nat) : Prop :=
  (∃ o ∈ s.live, o.pointer ≤ address ∧ address + length ≤ o.pointer + o.size) ∨
    ∀ i, ∀ b ∈ s.allocator.blocks i,
      address + length ≤ b.allocatedBlock ∨ b.allocatedBlock + b.size ≤ address

inductive Step (maxNodeId : UInt8) : State → Event → State → Prop where
  /-- `back().allocate` serves the request. -/
  | allocate {s : State} {numaNodeId : UInt8} {alignment size address : Nat} {a : Allocator}
      {header : AllocatedHeader} (hNode : numaNodeId ≤ maxNodeId)
      (hAdmissible : Admissible alignment size)
      (hCall : s.allocator.allocateBack numaNodeId alignment size
        = (a, some (address, header))) :
      Step maxNodeId s (.allocate numaNodeId alignment size)
        ⟨a, s.memory.writeHeader address header,
          ⟨add64 address sizeofAllocatedHeader, alignment, size⟩ :: s.live⟩
  /-- `back().allocate` fails and a block is made. -/
  | grow {s : State} {numaNodeId : UInt8} {alignment size base : Nat} {a : Allocator}
      (hNode : numaNodeId ≤ maxNodeId) (hAdmissible : Admissible alignment size)
      (hCall : s.allocator.allocateBack numaNodeId alignment size = (a, none))
      (hFresh : Fresh a.blocks base (sizeToAlloc size)) :
      Step maxNodeId s (.grow numaNodeId alignment size base)
        { s with allocator := a.allocateNewBlock numaNodeId (sizeToAlloc size) base }
  | free {s : State} {o : Allocation} {header : AllocatedHeader} (hLive : o ∈ s.live)
      (hHeader : s.memory o.headerAddress = some header) :
      Step maxNodeId s (.free o)
        ⟨s.allocator.free o.headerAddress header, s.memory, s.live.erase o⟩
  | write {s : State} {address length : Nat} (hMay : MayWrite s address length) :
      Step maxNodeId s (.write address length)
        { s with memory := s.memory.store address length }
  | defragment {s : State} {bases : UInt8 → Nat}
      (hFresh : FreshBases maxNodeId (s.allocator.removeFree maxNodeId).blocks bases) :
      Step maxNodeId s (.defragment bases)
        { s with allocator := s.allocator.defragment maxNodeId bases }
  | reinit {s : State} {bases : UInt8 → Nat}
      (hReleased : s.allocator.isFree maxNodeId = true →
        FreshBases maxNodeId (s.allocator.releaseAllocatedMemory maxNodeId).blocks bases)
      (hKept : s.allocator.isFree maxNodeId = false →
        FreshBases maxNodeId (s.allocator.removeFree maxNodeId).blocks bases) :
      Step maxNodeId s (.reinit bases)
        { s with allocator := s.allocator.reinit maxNodeId bases }

/-- An allocator right after its construction. -/
def State.init (maxNodeId : UInt8) (bases : UInt8 → Nat) (m : HeaderMemory) : State :=
  ⟨Allocator.construct maxNodeId bases, m, []⟩

end Allocator

end MxTasking.Memory
