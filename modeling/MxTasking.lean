import MxTasking.Verified.TransitionSystem
import MxTasking.Verified.Slots
import MxTasking.Verified.IntervalChain
import MxTasking.Verified.Tiling
import MxTasking.Verified.RingBuffer
import MxTasking.Verified.Traversal
import MxTasking.Verified.Neighbours
import MxTasking.Verified.ByteMemory
import MxTasking.Verified.LinearProbing
import MxTasking.Verified.Counting
import MxTasking.Verified.Parts
import MxTasking.Verified.Shares
import MxTasking.Verified.LinkedList
import MxTasking.Verified.Reads
import MxTasking.Verified.Mailboxes
import MxTasking.BLinkTree.Node
import MxTasking.BLinkTree.NodeSearch
import MxTasking.BLinkTree.Tree
import MxTasking.BLinkTree.Task
import MxTasking.BLinkTree.System
import MxTasking.BLinkTree.Abstract
import MxTasking.BLinkTree.AbstractSteps
import MxTasking.BLinkTree.NodeSpec
import MxTasking.BLinkTree.Refinement
import MxTasking.BLinkTree.Invariant
import MxTasking.BLinkTree.Execution
import MxTasking.BLinkTree.Linearizability
import MxTasking.BLinkTree.Splits
import MxTasking.BLinkTree.Structure
import MxTasking.BLinkTree.DeadSlots
import MxTasking.BLinkTree.Requests
import MxTasking.BLinkTree.Schedule
import MxTasking.BLinkTree.Answers
import MxTasking.BLinkTree.Predictions
import MxTasking.BLinkTree.Occupancy
import MxTasking.BLinkTree.NodeStatistics
import MxTasking.BLinkTree.Durability
import MxTasking.BLinkTree.Progress
import MxTasking.BLinkTree.Destruction
import MxTasking.BLinkTree.NodeIterator
import MxTasking.BLinkTree.ConsistencyChecker
import MxTasking.BLinkTree.OptimisticRead
import MxTasking.BLinkTree.NodeReads
import MxTasking.Memory.AllocationBlock
import MxTasking.Memory.BlockSpec
import MxTasking.Memory.BlockTiling
import MxTasking.Memory.Accounting
import MxTasking.Memory.Allocator
import MxTasking.Memory.AllocatorSafety
import MxTasking.Memory.AllocatorProgress
import MxTasking.Memory.EpochManager
import MxTasking.Memory.GarbageCollection
import MxTasking.Memory.LocalGarbage
import MxTasking.Memory.GlobalHeap
import MxTasking.Memory.ProcessorHeap
import MxTasking.Memory.ProcessorHeapRelease
import MxTasking.Memory.FixedSizeAllocator
import MxTasking.Tasking.TaskBuffer
import MxTasking.Tasking.Channel
import MxTasking.Tasking.Prefetching
import MxTasking.Tasking.Synchronization
import MxTasking.Tasking.Latch
import MxTasking.Tasking.OptimisticLock
import MxTasking.Tasking.RWSpinLock
import MxTasking.Tasking.Isolation
import MxTasking.Tasking.LatchWords
import MxTasking.Tasking.Snapshot
import MxTasking.Tasking.Delivery
import MxTasking.Tasking.DeliveryProgress
import MxTasking.Util.MPSCQueue
import MxTasking.Util.Queue
import MxTasking.Util.BoundMPMCQueue
import MxTasking.Util.Vector
import MxTasking.Util.CoreSet
import MxTasking.Tasking.Scheduler
import MxTasking.HashJoin.InlineHashtable
import MxTasking.Memory.AlignmentHelper
import MxTasking.HashJoin.System
import MxTasking.HashJoin.Places
import MxTasking.HashJoin.Barrier
import MxTasking.HashJoin.Rows
import MxTasking.HashJoin.Tables
import MxTasking.HashJoin.Merge
import MxTasking.HashJoin.Termination
import MxTasking.HashJoin.Completion
import MxTasking.HashJoin.Correctness
import MxTasking.HashJoin.TableSize
import MxTasking.HashJoin.Delivered
import MxTasking.Benchmark.RequestContainer
import MxTasking.Benchmark.RequestScheduler
import MxTasking.Benchmark.Driver
