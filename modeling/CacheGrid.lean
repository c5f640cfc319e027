import CacheGrid.GoValues
import CacheGrid.InterleavedPrograms
import CacheGrid.PooledConnections
import CacheGrid.SequentialRuns
import CacheGrid.TimedMap
import CacheGrid.Store
import CacheGrid.StoreLedger
import CacheGrid.Shard
import CacheGrid.ShardInvariant
import CacheGrid.ShardRecency
import CacheGrid.ShardLedger
import CacheGrid.MemoryStore
import CacheGrid.MemoryStoreLedger
import CacheGrid.PebbleStore
import CacheGrid.PebbleLedger
import CacheGrid.PebbleCleanup
import CacheGrid.PebbleCounters
import CacheGrid.PebbleCounterRuns
import CacheGrid.StoreInterchange
import CacheGrid.LockEngine
import CacheGrid.LockSafety
import CacheGrid.HashRing
import CacheGrid.ClockwiseSearch
import CacheGrid.RingOwnership
import CacheGrid.RingAgreement
import CacheGrid.RingReplicas
import CacheGrid.ClusterLocks
import CacheGrid.ClusterFencing
import CacheGrid.MembershipEvents
import CacheGrid.LockHandlers
import CacheGrid.Transport
import CacheGrid.TransportPairing
import CacheGrid.TagIndex
import CacheGrid.CacheNode
import CacheGrid.Grid
import CacheGrid.GridCalls
import CacheGrid.GridRouting
import CacheGrid.CallOutcomes
import CacheGrid.StoreLaws
import CacheGrid.GridCluster
import CacheGrid.PartitionedMap
import CacheGrid.GridTransparency
import CacheGrid.OwnershipChanges
import CacheGrid.CallOperations
import CacheGrid.GridEvolution
import CacheGrid.GridReads
import CacheGrid.CounterReads
import CacheGrid.NearCacheExpiry
import CacheGrid.NearCacheRaces
import CacheGrid.ValuesInTransit
import CacheGrid.GridReplication
import CacheGrid.PebbleCalls
import CacheGrid.StoreAnnouncements
import CacheGrid.TagCalls
import CacheGrid.TagHistory
import CacheGrid.ClusterTags
import CacheGrid.Namespaces
import CacheGrid.ClientSessions
import CacheGrid.LocalSessions
import CacheGrid.TagCleanup
import CacheGrid.TagLifetimes
import CacheGrid.MemoryBudget
import CacheGrid.RateLimiting
import CacheGrid.TokenBucket
import CacheGrid.SlidingWindow
import CacheGrid.ChangingWindows
import CacheGrid.CacheLifecycle
import CacheGrid.ShutdownOrder
import CacheGrid.ReadWriteLock
import CacheGrid.Broker
import CacheGrid.BrokerChannels
import CacheGrid.OpenSubscriptions
import CacheGrid.PebbleRecords
import CacheGrid.CounterDeadlines
import CacheGrid.PebbleDeadlines
import CacheGrid.ExpiryCallbacks
import CacheGrid.ExactSweeps
import CacheGrid.ShardSections
import CacheGrid.LockCleanup
import CacheGrid.BulkWrites
import CacheGrid.RequestedTTL
import CacheGrid.Base64
import CacheGrid.HTTPValues
import CacheGrid.ResponseCaching
import CacheGrid.ClientKeys
import CacheGrid.FailedWrites
import CacheGrid.FailedDeletes
import CacheGrid.LinearizationPoints
import CacheGrid.CacheClocks
import CacheGrid.GridLinearizability
import CacheGrid.ConnectedCaches
import CacheGrid.ClusterCounters
import CacheGrid.LossyQueues
import CacheGrid.BrokerQueues
import CacheGrid.EventDelivery
