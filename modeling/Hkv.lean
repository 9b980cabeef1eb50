import Hkv.AddressTable
import Hkv.BitScan
import Hkv.ByteMemory
import Hkv.CacheFrame
import Hkv.CacheFree
import Hkv.CacheLists
import Hkv.CacheRuns
import Hkv.CacheStructure
import Hkv.CacheThread
import Hkv.ChunkBatch
import Hkv.ChunkConservation
import Hkv.ChunkFlush
import Hkv.ChunkPool
import Hkv.ChunkSpace
import Hkv.CollectionSpace
import Hkv.CombiningLeader
import Hkv.CombiningProgress
import Hkv.CombiningQueue
import Hkv.CombiningRun
import Hkv.CurrentValue
import Hkv.DataCalls
import Hkv.DataChain
import Hkv.DataLayer
import Hkv.DataMerge
import Hkv.DataRuns
import Hkv.DataScan
import Hkv.DataSplit
import Hkv.DoubleBuffer
import Hkv.DoublyLinked
import Hkv.GarbageCollection
import Hkv.GcFrame
import Hkv.IoRing
import Hkv.JumpNodes
import Hkv.KeyedSort
import Hkv.LinkedChain
import Hkv.ListNode
import Hkv.Location
import Hkv.LockedNodes
import Hkv.LogDurability
import Hkv.LruSequence
import Hkv.MtsConfig
import Hkv.MtsImpl
import Hkv.NodePool
import Hkv.NodeSplit
import Hkv.OpLog
import Hkv.OrderedMap
import Hkv.OwnedWrites
import Hkv.PersistentMemory
import Hkv.Placement
import Hkv.Prism
import Hkv.RangePartition
import Hkv.Reclaim
import Hkv.Recovery
import Hkv.RemoveEffect
import Hkv.RemovedKeys
import Hkv.ResourcePool
import Hkv.Scan
import Hkv.ScanChain
import Hkv.SearchDelivery
import Hkv.SearchLog
import Hkv.SearchShutdown
import Hkv.SlotLinks
import Hkv.StaleEntry
import Hkv.StepFrame
import Hkv.StepRun
import Hkv.TableOwner
import Hkv.TableSlots
import Hkv.TaggedPointer
import Hkv.TandemAnchors
import Hkv.TandemChain
import Hkv.TandemCount
import Hkv.TandemCoverage
import Hkv.TandemIndex
import Hkv.TandemInsert
import Hkv.TandemOrder
import Hkv.TandemPools
import Hkv.TandemRanges
import Hkv.TandemRebalance
import Hkv.TandemRepeats
import Hkv.TandemRun
import Hkv.TandemShape
import Hkv.TandemStep
import Hkv.ThreadIds
import Hkv.UpdateRuns
import Hkv.ValueChain
import Hkv.ValueList
import Hkv.ValueListCrash
import Hkv.ValueStorage
import Hkv.VersionedLock
import Hkv.WriteBuffer
import Hkv.WriterRun
import Hkv.ZeroKey
