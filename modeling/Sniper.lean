import Sniper.Lib.PtrTable
import Sniper.Lib.Machine
import Sniper.Lib.Fairness
import Sniper.Lib.FifoServer
import Sniper.Cache.Dish
import Sniper.Cache.BlockData
import Sniper.Cache.Encoding
import Sniper.Cache.Operations
import Sniper.Cache.Refinement
import Sniper.Cache.Admission
import Sniper.Cache.Faithful
import Sniper.Cache.CacheSet
import Sniper.Cache.Conservation
import Sniper.Coherence.Messages
import Sniper.Coherence.Directory
import Sniper.Coherence.HandlerMoves
import Sniper.Coherence.LastLevel
import Sniper.Coherence.System
import Sniper.Coherence.Shape
import Sniper.Coherence.CacheSteps
import Sniper.Coherence.Invariant
import Sniper.Coherence.Requester
import Sniper.Coherence.DirectorySteps
import Sniper.Coherence.Preservation
import Sniper.Coherence.Safety
import Sniper.Coherence.Faults
import Sniper.Coherence.Guarantees
import Sniper.Coherence.Answers
import Sniper.Coherence.Forwarder
import Sniper.Coherence.Forwarding
import Sniper.Coherence.DataValue
import Sniper.Coherence.Waiters
import Sniper.Sift.RoundTrip
import Sniper.Sift.Decoding
import Sniper.Sift.Control
import Sniper.Sift.ControlTrip
import Sniper.Sift.StaticCache
import Sniper.Cache.SetLocks
import Sniper.Coherence.DirectoryCache
import Sniper.Coherence.DirectoryCalls
import Sniper.Cache.Validity
import Sniper.Cache.Capacity
import Sniper.Cache.Contents
import Sniper.Dram.DramCache
import Sniper.Dram.Transparency
import Sniper.Network.Broadcast
import Sniper.System.SyncExclusion
import Sniper.System.FutexLinux
import Sniper.System.BarrierRuns
import Sniper.System.SchedulerTables
import Sniper.System.SetLock
import Sniper.Performance.CycleSkipping
import Sniper.Cache.Bookkeeping
import Sniper.Cache.Pruning
import Sniper.Cache.Decisions
import Sniper.Cache.Splitting
import Sniper.Cache.Replacement
import Sniper.Cache.Lru
import Sniper.Cache.QueryBased
import Sniper.Cache.Writebacks
import Sniper.Levels.Controllers
import Sniper.Tlb.PageSet
import Sniper.Tlb.Tlb
import Sniper.Tlb.Victims
import Sniper.Timing.ContentionModel
import Sniper.Timing.HistoryList
import Sniper.Timing.WindowedMG1
import Sniper.Lib.Assignments
import Sniper.Lib.FixedPoint
import Sniper.Lib.SlidingPath
import Sniper.Performance.Ports
import Sniper.Performance.PortIssue
import Sniper.Performance.PortAssignment
import Sniper.Performance.IntervalContention
import Sniper.Performance.DependencyList
import Sniper.Performance.Squashing
import Sniper.Performance.Renumbering
import Sniper.Performance.InstructionOperands
import Sniper.Performance.HandledInstruction
import Sniper.Performance.DependencyTracking
import Sniper.Performance.RobEntering
import Sniper.Performance.RobLinks
import Sniper.Performance.RemovalBuffer
import Sniper.Performance.Windows
import Sniper.Performance.IntervalTimer
import Sniper.Performance.CriticalPath
import Sniper.Performance.IntervalProgress
import Sniper.Performance.ReadyTimes
import Sniper.System.TryLock
import Sniper.System.FutexTimeouts
import Sniper.Misc.CircularQueue
import Sniper.Performance.WindowRing
import Sniper.Performance.WindowAddressing
import Sniper.Performance.WindowLookups
import Sniper.Performance.WindowLists
import Sniper.Performance.LongLatency
import Sniper.Lib.LongestPath
import Sniper.Performance.WindowDependencies
import Sniper.Performance.BranchResolution
import Sniper.Lib.Tiling
import Sniper.Core.MemoryAccess
import Sniper.Core.LineSplitting
import Sniper.Network.MemoryControllers
import Sniper.Network.ControllerPlacement
import Sniper.Misc.SpinLoopDetector
import Sniper.Misc.SpinDetection
import Sniper.Performance.ReadyHistory
import Sniper.Performance.Removals
import Sniper.Performance.StoreAddresses
import Sniper.Performance.EnteringProgress
import Sniper.Performance.CycleProgress
import Sniper.Performance.DecodedInstructions
import Sniper.Performance.DecodedRuns
import Sniper.Lib.Trimming
import Sniper.Levels.Mshr
import Sniper.Lib.Bits
import Sniper.Lib.Search
import Sniper.Misc.BitVector
import Sniper.Levels.Copies
import Sniper.Levels.Changes
import Sniper.Levels.Cascades
import Sniper.Levels.Elsewhere
import Sniper.Levels.Requests
import Sniper.Levels.Upgrades
import Sniper.Levels.Accesses
import Sniper.Levels.Answers
import Sniper.Levels.Waiters
import Sniper.Levels.LatestContents
import Sniper.Lib.LruStack
import Sniper.Lib.SetTree
import Sniper.Cheetah.Saclru
import Sniper.Cheetah.Slots
import Sniper.Cheetah.Walk
import Sniper.Cheetah.Init
import Sniper.Cheetah.Hits
import Sniper.Cheetah.AllCaches
import Sniper.Cheetah.Manager
import Sniper.Cheetah.Batches
import Sniper.FastNehalem.FastCache
import Sniper.FastNehalem.MemoryManager
import Sniper.FastNehalem.Plain
import Sniper.Lib.Population
import Sniper.Misc.Semaphore
import Sniper.Misc.Barrier
import Sniper.Lib.NameTree
import Sniper.Configuration.Store
import Sniper.Configuration.LastWrite
import Sniper.Lib.Shuffle
import Sniper.Lib.WordBytes
import Sniper.Sift.PhysicalAddresses
import Sniper.TraceFrontend.AddressSpaces
