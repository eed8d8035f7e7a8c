import Sniper.Library.Outcome
import Sniper.Library.Buffer
import Sniper.Library.Forest
import Sniper.Library.Machine
import Sniper.CacheState
import Sniper.CacheSet
import Sniper.Cache
import Sniper.CacheLines
import Sniper.CacheData
import Sniper.Hierarchy
import Sniper.LineView
import Sniper.DataMap
import Sniper.CacheCntlr
import Sniper.Snoop
import Sniper.Fill
import Sniper.Inclusion
import Sniper.Request
import Sniper.CoreAccess
import Sniper.Access
import Sniper.DirectoryMsg
import Sniper.System
import Sniper.DirtyPath
import Sniper.WriteSnoop
import Sniper.SingleWriter
import Sniper.CacheBlocks
import Sniper.Contents
import Sniper.SubtreeUpdate
import Sniper.StackLock
import Sniper.LatestData
import Sniper.LockDiscipline
import Sniper.LockConflict
import Sniper.PrivateStack
import Sniper.Transparent
import Sniper.LastLevel
import Sniper.Resume
import Sniper.DirectoryProtocol
import Sniper.DirectoryWaiters
import Sniper.Registry
import Sniper.Accounting
import Sniper.FaultInjection
import Sniper.BlockWalk
import Sniper.DramCntlr
import Sniper.Lifetime
import Sniper.MemorySystem
import Sniper.CacheAgree
import Sniper.ExactData
import Sniper.InjectedFaults
import Sniper.ConfiguredType
import Sniper.Library.Recency
import Sniper.Library.BoundedMap
import Sniper.Library.CarryLookahead
import Sniper.CacheSetLRU2
import Sniper.LruOrder
import Sniper.CacheSetMap
import Sniper.WayPartition
import Sniper.Footprint
import Sniper.ApproxLog
import Sniper.Rapcla
import Sniper.Appmul
import Sniper.Library.ForLoop
import Sniper.RangeRegistration
import Sniper.LiftimeWalk
import Sniper.AccessCharge
import Sniper.Library.Segments
import Sniper.ReadSegments
import Sniper.Library.FloatText
import Sniper.LoadProbvals
import Sniper.Library.NestedLoops
import Sniper.KnobSearch
import Sniper.Library.WhileLoop
import Sniper.Library.KeepLargest
import Sniper.Mshr
import Sniper.Library.FamilySum
import Sniper.PeriodicHook
import Sniper.PrefetchQueue
import Sniper.Library.AlignedBlocks
import Sniper.LineSplit
import Sniper.Library.Rounding
import Sniper.PageCounters
import Sniper.Library.SumLoop
import Sniper.Sobel
import Sniper.Library.RecencyList
import Sniper.LruReuse
import Sniper.SharedStack
import Sniper.SharedTransparent
import Sniper.CoreMemory
import Sniper.InstructionFetch
import Sniper.ImageFilters
import Sniper.MagicCommands
import Sniper.InstrumentedFilter
import Sniper.AccessStats
import Sniper.Library.DrawStream
import Sniper.FaultBuilds
import Sniper.SameDumps
