import CachePolicies.ARCMemoryBounds
import CachePolicies.ARCMemoryCoherence
import CachePolicies.ARCMemoryElements
import CachePolicies.AdaptiveReplacementMisses
import CachePolicies.AdaptiveReplacementRecency
import CachePolicies.AdaptiveReplacementScans
import CachePolicies.CoincidingPolicies
import CachePolicies.DirectMappedHashCodes
import CachePolicies.DirectMappedStores
import CachePolicies.EvictionQueueIndexes
import CachePolicies.EvictionQueueOffers
import CachePolicies.EvictionQueuePrunings
import CachePolicies.FifoAnomalies
import CachePolicies.FixedReplacementRecency
import CachePolicies.FixedReplacementSetters
import CachePolicies.LfuCacheObjects
import CachePolicies.LfuComparisons
import CachePolicies.LfuRecency
import CachePolicies.LfuRemovals
import CachePolicies.LogFileSimulations
import CachePolicies.LruAgreements
import CachePolicies.LruCaches
import CachePolicies.LruConfigurations
import CachePolicies.LruIntegerCaches
import CachePolicies.LruSets
import CachePolicies.LruSetPartitions
import CachePolicies.LruUndecodedLines
import CachePolicies.MQExpiries
import CachePolicies.PolicyRestarts
import CachePolicies.QueueRecency
import CachePolicies.SimpleCacheGhosts
import CachePolicies.TrappedPolicies
import CachePolicies.TwoQRecency
import CachePolicies.TwoQScans
import CachePolicies.ArcCacheDirectories
