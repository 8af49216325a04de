import GThread.Opacity
import GThread.Snapshot
import GThread.ThreadTable
import GThread.Family
import GThread.JoinedWork
import GThread.Tree
import GThread.ForkJoin
import GThread.Deadlock
import GThread.SequentialOrder
import GThread.BumpAllocator
import GThread.ShareAllocator
import GThread.Startup
import GThread.Lockstep
import GThread.FaultHandler
import GThread.Unordered
import GThread.Rollbacks
import GThread.PageBlocks
import GThread.Subheap
import GThread.Realloc
import GThread.Retry
import GThread.Rejection
import GThread.PageVersions
import GThread.Restoration
import GThread.TableMemory
import GThread.Refinement
import GThread.Separation
import GThread.Completion
import GThread.JoinOrder
import GThread.Correctness
import GThread.Commuting
import GThread.Nolock
import GThread.MallocWrapper
import GThread.StackBottom
import GThread.OrderedCorrectness
import GThread.OrderViolation
