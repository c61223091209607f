import Clape.Runs
import Clape.IntrusiveLists
import Clape.Machine
import Clape.Outcomes
import Clape.HashTable
import Clape.PageTable
import Clape.PageTableHash
import Clape.PageTableRuns
import Clape.SwapFile
import Clape.SwapCells
import Clape.ContiguousSearch
import Clape.KernelFrames
import Clape.KernelRequests
import Clape.KernelPages
import Clape.SecondChance
import Clape.FreeFrames
import Clape.ByteStore
import Clape.Segments
import Clape.Tlb
import Clape.SegmentTests
import Clape.LoadElf
import Clape.System
import Clape.PageContents
import Clape.PageBytes
import Clape.Moves
import Clape.Traces
import Clape.Menu
import Clape.PageTableEffects
import Clape.FrameTable
import Clape.FrameOwnership
import Clape.FrameHash
import Clape.FrameSteps
import Clape.TlbCoherence
import Clape.FrameSimulation
import Clape.FrameStops
import Clape.FrameRuns
import Clape.TlbRuns
import Clape.CellTable
import Clape.CellInvariant
import Clape.CellSteps
import Clape.CellSimulation
import Clape.InFlightStores
import Clape.SwapOffsets
import Clape.Tallies
import Clape.Statistics
import Clape.Wakeups
import Clape.ProcessExit
import Clape.KernelEvictions
import Clape.Synch
import Clape.SynchClients
import Clape.Processes
import Clape.ProcessMoves
import Clape.SysCalls
import Clape.ProcessSharing
import Clape.ExitWait
import Clape.Pids
import Clape.SwapBounds
import Clape.ExitCodes
import Clape.Termination
import Clape.Fork
import Clape.ForkFailures
import Clape.ForkLeaks
import Clape.Calls
import Clape.Placement
import Clape.Uio
import Clape.SfsFormat
import Clape.SfsDevice
import Clape.SfsVolume
import Clape.SfsIo
import Clape.SfsVnodes
import Clape.SfsConsistency
import Clape.SfsViews
import Clape.SfsBlocks
import Clape.SemFs
import Clape.KernelHeap
import Clape.KernelHeapInvariant
import Clape.KernelHeapSteps
import Clape.KernelHeapMarks
import Clape.KernelHeapFrees
import Clape.KernelHeapRuns
import Clape.KernelHeapSound
import Clape.BootMemory
import Clape.BootHeap
import Clape.PtInit
import Clape.SfsRetries
import Clape.SfsLeaks
import Clape.SfsLimits
import Clape.HashBounds
import Clape.SfsAllocation
import Clape.SfsSpace
import Clape.SfsBytes
import Clape.SfsFresh
import Clape.SfsFiles
import Clape.SfsTruncation
import Clape.SfsShrinks
import Clape.UioMoves
import Clape.Bitmaps
import Clape.DoublyLinked
import Clape.ThreadLists
import Clape.Migration
import Clape.Holdings
import Clape.Memories
import Clape.PrivateMemory
import Clape.PrivateMemorySteps
import Clape.PrivateMemoryForks
import Clape.PrivateMemoryMoves
import Clape.PrivateMemoryRuns
import Clape.PagingRefinement
import Clape.DemandPaging
import Clape.ForkSteps
import Clape.ForkMemory
import Clape.UserFaults
import Clape.Scheduler
import Clape.Residence
import Clape.SchedulerInvariant
import Clape.SchedulerSteps
import Clape.SchedulerMigration
import Clape.SchedulerRuns
