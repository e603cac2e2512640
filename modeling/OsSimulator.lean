import OsSimulator.Library.GreedyOrder
import OsSimulator.Library.UnitSchedule
import OsSimulator.Library.ShortestRemaining
import OsSimulator.Library.InOrderService
import OsSimulator.Library.RoundRobin
import OsSimulator.Library.WeightedDraw
import OsSimulator.Library.RingArc
import OsSimulator.Library.StickyPager
import OsSimulator.Library.DoublyLinked
import OsSimulator.Library.TaggedTiling
import OsSimulator.Library.IntervalHeap
import OsSimulator.Library.BuddyBlocks
import OsSimulator.Library.LruCache
import OsSimulator.Library.StampedSlots
import OsSimulator.Library.DemandPager
import OsSimulator.Library.LazyBlocks
import OsSimulator.Library.EventRun
import OsSimulator.Library.BoundedFifo
import OsSimulator.Library.WakeupCover
import OsSimulator.Library.Census
import OsSimulator.Library.CondQueue
import OsSimulator.Library.LockOrder
import OsSimulator.Library.Mailbox
import OsSimulator.Library.RootedTree
import OsSimulator.Library.Custody
import OsSimulator.Library.GrowingPool
import OsSimulator.Model.Banker
import OsSimulator.Model.FreeList
import OsSimulator.Model.Buddy
import OsSimulator.Model.Mutex
import OsSimulator.Model.Paging
import OsSimulator.Model.SharedMemory
import OsSimulator.Model.MultiLevel
import OsSimulator.Model.SyncCond
import OsSimulator.Model.Pipe
import OsSimulator.Model.BoundedBuffer
import OsSimulator.Model.MessageQueue
import OsSimulator.Model.Semaphore
import OsSimulator.Model.RWLock
import OsSimulator.Model.Philosophers
import OsSimulator.Model.Epoll
import OsSimulator.Model.EpollThreads
import OsSimulator.Model.Netpoller
import OsSimulator.Model.AddressSpace
import OsSimulator.Model.CallStack
import OsSimulator.Model.Process
import OsSimulator.Model.Scheduler
import OsSimulator.Model.ProcessLifecycle
import OsSimulator.Model.Kernel
import OsSimulator.Model.Gmp
import OsSimulator.Model.CpuMode
import OsSimulator.Model.TrapTable
import OsSimulator.Model.Syscall
import OsSimulator.Interface.TickPhases
import OsSimulator.Interface.LineView
import OsSimulator.Interface.PageTableView
import OsSimulator.Interface.TwoLevelView
import OsSimulator.Interface.PagingView
import OsSimulator.Interface.FrameTable
import OsSimulator.Interface.AccessMoves
import OsSimulator.Interface.DemandPaging
import OsSimulator.Interface.ReplacementOrder
import OsSimulator.Interface.TLBCache
import OsSimulator.Interface.PipeMoves
import OsSimulator.Interface.PipeWriters
import OsSimulator.Interface.BufferMoves
import OsSimulator.Interface.SemaphoreMoves
import OsSimulator.Interface.EpollCalls
import OsSimulator.Interface.NetpollMoves
import OsSimulator.Interface.BlockList
import OsSimulator.Interface.ProcessTable
import OsSimulator.Interface.ProcessTree
import OsSimulator.Interface.GmpPlaces
import OsSimulator.Interface.GmpRounds
import OsSimulator.Interface.GmpMoves
import OsSimulator.Analysis.BankerSafety
import OsSimulator.Analysis.BankerRequests
import OsSimulator.Analysis.BankerResources
import OsSimulator.Analysis.Places
import OsSimulator.Analysis.SchedInvariant
import OsSimulator.Analysis.SchedTimings
import OsSimulator.Analysis.WorkConservation
import OsSimulator.Analysis.StcfOptimal
import OsSimulator.Analysis.SjfOptimal
import OsSimulator.Analysis.SjfStcfAgree
import OsSimulator.Analysis.FifoCompletion
import OsSimulator.Analysis.RoundRobinFairness
import OsSimulator.Analysis.RoundRobinFifo
import OsSimulator.Analysis.ContextSwitches
import OsSimulator.Analysis.LotteryDraw
import OsSimulator.Analysis.MlfqAccounts
import OsSimulator.Analysis.MlfqLevels
import OsSimulator.Analysis.MlfqPriority
import OsSimulator.Analysis.MutexWakeup
import OsSimulator.Analysis.MutexExclusion
import OsSimulator.Analysis.ClockSecondChance
import OsSimulator.Analysis.PagingFrames
import OsSimulator.Analysis.PagingCounters
import OsSimulator.Analysis.DirtyBits
import OsSimulator.Analysis.TLBRecency
import OsSimulator.Analysis.TLBTransparency
import OsSimulator.Analysis.PagingReference
import OsSimulator.Analysis.FifoOrder
import OsSimulator.Analysis.PagingRemap
import OsSimulator.Analysis.AccessChecks
import OsSimulator.Analysis.TwoLevelPaging
import OsSimulator.Analysis.SharedMemoryView
import OsSimulator.Analysis.PipeStream
import OsSimulator.Analysis.PipeEof
import OsSimulator.Analysis.PipeWriterWakeup
import OsSimulator.Analysis.MessageQueueFifo
import OsSimulator.Analysis.BufferStream
import OsSimulator.Analysis.BufferWakeups
import OsSimulator.Analysis.SemaphoreAdmission
import OsSimulator.Analysis.RWLockInvariant
import OsSimulator.Analysis.PhilosophersDeadlock
import OsSimulator.Analysis.EpollRegistration
import OsSimulator.Analysis.EpollDelivery
import OsSimulator.Analysis.NetpollerParked
import OsSimulator.Analysis.NetpollerArrivals
import OsSimulator.Analysis.FreeListHeap
import OsSimulator.Analysis.FreeListOrder
import OsSimulator.Analysis.SplitDecision
import OsSimulator.Analysis.BuddyAllocation
import OsSimulator.Analysis.HeapBreak
import OsSimulator.Analysis.CallStackDiscipline
import OsSimulator.Analysis.ProcessLifecycle
import OsSimulator.Analysis.ProcessIsolation
import OsSimulator.Analysis.ExitStatus
import OsSimulator.Analysis.ForkCopy
import OsSimulator.Analysis.KernelProcesses
import OsSimulator.Analysis.KernelIdle
import OsSimulator.Analysis.BurstBounds
import OsSimulator.Analysis.GmpConservation
import OsSimulator.Analysis.GmpCompletion
import OsSimulator.Analysis.GmpThreads
import OsSimulator.Analysis.GmpAssignment
import OsSimulator.Analysis.CpuPrivilege
import OsSimulator.Analysis.TrapTransparency
import OsSimulator.Analysis.SyscallDispatch
import OsSimulator.Analysis.CircularWait
