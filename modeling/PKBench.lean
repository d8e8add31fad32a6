import PKBench.CyclicArc
import PKBench.ByteBuffer
import PKBench.Machine
import PKBench.Tally
import PKBench.StaticSchedule
import PKBench.Binary32
import PKBench.Options
import PKBench.KeyGenerator
import PKBench.IndexKey
import PKBench.DiscreteLog
import PKBench.LatestIds
import PKBench.Benchmark
import PKBench.LoadIds
import PKBench.RunIds
import PKBench.RunAccounting
import PKBench.LatencyReport
import PKBench.TimeIds
import PKBench.DriverArithmetic
import PKBench.LogSegment
import PKBench.LogStructured
import PKBench.CleanerReserve
import PKBench.SegmentBytes
import PKBench.FlatStore
import PKBench.FlatStoreLB
import PKBench.LeafArena
import PKBench.Recovery
import PKBench.Reopen
import PKBench.LastWrite
import PKBench.CleaningLog
import PKBench.CleaningPlaces
import PKBench.CleaningPointers
import PKBench.RecoveryOrder
import PKBench.RecoveryWait
import PKBench.RecoveryTable
import PKBench.Forks
import PKBench.NBTreeKeys
import PKBench.GarbageAccounting
import PKBench.Compaction
import PKBench.WorkerIds
import PKBench.ViperWrapper
import PKBench.StoreSequence
import PKBench.RocksdbScan
import PKBench.Samples
import PKBench.ListDBWrapper
import PKBench.Conservation
import PKBench.SegmentOwners
import PKBench.GracePeriod
import PKBench.CleaningReaders
import PKBench.Loads
import PKBench.FastFairPage
import PKBench.FastFairShift
import PKBench.FastFairTree
import PKBench.FastFairStore
import PKBench.FastFairRange
import PKBench.FastFairIndex
import PKBench.FastFairThreads
import PKBench.FastFairHistory
import PKBench.PrefixDirectory
import PKBench.CcehSegment
import PKBench.CcehTable
import PKBench.CcehSema
