import Tsl.Offload.Drain
import Tsl.WorkerThread
import Tsl.CpuMask
import Tsl.Offload.Shutdown
import Tsl.HashTable
import Tsl.FixedHeap.Cost
import Tsl.FixedHeap.Resize
import Tsl.Timer.Ledger
import Tsl.Megaqueue
import Tsl.Megaqueue.Fresh
import Tsl.Megaqueue.Layout
import Tsl.Megaqueue.Slots
import Tsl.Megaqueue.Prefault
import Tsl.Megaqueue.Opening
import Tsl.Megaqueue.Shared
import Tsl.Alloc.Logalloc.Headers
import Tsl.Alloc.Logalloc.Live
import Tsl.Alloc.Logalloc.Finalize
import Tsl.Alloc.Logalloc.Refused
import Tsl.Alloc.Allocator.Order
import Tsl.Alloc.Allocator.Growth
import Tsl.Alloc.Allocator.Conserve
import Tsl.Alloc.Allocator.Capacity
import Tsl.Alloc.Allocator.Sizes
import Tsl.Alloc.Allocator.Refusal
import Tsl.Alloc.Allocator.MaxItems
import Tsl.Alloc.Allocator.Delete
import Tsl.Alloc.Allocator.Contents
import Tsl.RbTree.Iterate
import Tsl.RbTree.Agree
import Tsl.RbTree.Lookup
import Tsl.RbTree.Uninitialized
import Tsl.RbTree.Traverse
import Tsl.Refcnt.Count
import Tsl.Logger.Poll
import Tsl.Timer.Disarm
import Tsl.Timer.LiveTimers
import Tsl.Timer.RunsOut
import Tsl.Timer.CatchUp
import Tsl.Offload.Pool
import Tsl.Offload.Interval
import Tsl.WorkerThread.Lifecycle
import Tsl.Config.Layers
import Tsl.CpuMask.Set
import Tsl.HashTable.Failures
import Tsl.HashTable.LongKeys
import Tsl.Timer.Early
import Tsl.Alloc.Logalloc.Count
import Tsl.Alloc.Logalloc.Contents
import Tsl.List.Splice
import Tsl.List.Sequences
import Tsl.List.Iterate
import Tsl.Logger.Service
import Tsl.Offload.Turns
