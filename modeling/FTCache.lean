import FTCache.Library.PartialMap
import FTCache.Library.Words
import FTCache.Library.Memory
import FTCache.Library.Posix
import FTCache.Library.Runs
import FTCache.Library.Ledger
import FTCache.Library.Replay
import FTCache.Library.OrderedMap
import FTCache.Library.Crowd
import FTCache.Library.Paths
import FTCache.Library.Locks
import FTCache.Library.Chains
import FTCache.Library.Scan
import FTCache.Library.Pools
import FTCache.Library.CharArrays
import FTCache.Messages
import FTCache.Server
import FTCache.DataMover
import FTCache.NvmeCache
import FTCache.CachedOnce
import FTCache.HandOff
import FTCache.Courier
import FTCache.MoverDrain
import FTCache.Client
import FTCache.ClientResources
import FTCache.Handlers
import FTCache.ServerResources
import FTCache.ReadAnswers
import FTCache.Wrappers
import FTCache.RemoteCalls
import FTCache.TimedWaits
import FTCache.RemoteReads
import FTCache.Sessions
import FTCache.ReadSizes
import FTCache.Streams
import FTCache.PositionalReads
import FTCache.WideSeeks
import FTCache.World
import FTCache.Interception
import FTCache.AddressLookup
import FTCache.LogRecords
import FTCache.LogFiles
import FTCache.Tracking
import FTCache.AllOrNothing
import FTCache.AccessModes
import FTCache.DataDirectory
import FTCache.Degradation
import FTCache.Flights
import FTCache.StackFrames
import FTCache.LateMessages
import FTCache.Translation
import FTCache.Closing
import FTCache.Asserts
import FTCache.Stalls
import FTCache.Quiescence
import FTCache.Protocol
import FTCache.ProtocolSteps
import FTCache.Descriptors
import FTCache.Ownership
import FTCache.Leaks
import FTCache.Patience
import FTCache.OwnFile
import FTCache.Reference
import FTCache.LocalCalls
import FTCache.RefinementServe
import FTCache.Refinement
import FTCache.Completion
import FTCache.FailedHosts
import FTCache.KeptOpen
import FTCache.PreadFailover
import FTCache.Failover
import FTCache.EntryPoints
import FTCache.HashRing
import FTCache.Placement
import FTCache.LivePlacement
import FTCache.RingPreference
import FTCache.Redistribution
import FTCache.DistributionReport
import FTCache.TimeoutCounters
import FTCache.ClientLocks
import FTCache.ProgressLoop
import FTCache.HostSelection
import FTCache.ConcurrentSeeks
