import Hiresperf.Foundation.StepMachine
import Hiresperf.Foundation.CircularWindow
import Hiresperf.RingBuffer
import Hiresperf.RingInterleaving
import Hiresperf.Foundation.ByteCodec
import Hiresperf.LogEntry
import Hiresperf.Framing
import Hiresperf.CpuSelection
import Hiresperf.ModuleInit
import Hiresperf.PollingThreads
import Hiresperf.InstructedWork
import Hiresperf.LockBalance
import Hiresperf.InstructedMode
import Hiresperf.BarrierSafety
import Hiresperf.PollCompleteness
import Hiresperf.Foundation.BitField
import Hiresperf.Foundation.Loops
import Hiresperf.RmidTable
import Hiresperf.RmidAssociation
import Hiresperf.ImcPmus
import Hiresperf.MbmCounters
import Hiresperf.LogReaders
import Hiresperf.LogParsing
import Hiresperf.NodeBandwidth
import Hiresperf.SchedIntervals
import Hiresperf.ModuleUnload
import Hiresperf.RmidAllocation
import Hiresperf.SetRmidIoctl
import Hiresperf.DiscoveryTable
import Hiresperf.BpfCodec
import Hiresperf.BpfLog
import Hiresperf.Foundation.Ledger
import Hiresperf.InitUnwind
import Hiresperf.LdbDecoders
import Hiresperf.Foundation.StreamMerge
import Hiresperf.TotalBandwidth
import Hiresperf.Foundation.Relational
import Hiresperf.InvocationMetrics
import Hiresperf.AnalysisDatabase
import Hiresperf.ImcRegisters
import Hiresperf.Foundation.PythonText
import Hiresperf.PollDifferences
import Hiresperf.SchedLines
import Hiresperf.Foundation.DictSums
import Hiresperf.Foundation.Occupancy
import Hiresperf.LdbEvents
import Hiresperf.LockAnalysis
import Hiresperf.FileMetrics
import Hiresperf.Foundation.LikePattern
import Hiresperf.FunctionSearch
import Hiresperf.Foundation.FirstMatch
import Hiresperf.LineLookup
import Hiresperf.FlameGraph
import Hiresperf.FileBandwidth
import Hiresperf.RingAllocation
import Hiresperf.Foundation.HeapMerge
import Hiresperf.PerCoreMerge
import Hiresperf.HwRegisters
import Hiresperf.DeviceIoctl
import Hiresperf.DvsecWalk
import Hiresperf.InstructedReport
import Hiresperf.ClientApi
import Hiresperf.EventColumns
import Hiresperf.PerCoreEntries
import Hiresperf.BinnedMetrics
import Hiresperf.BpfRoundTrip
import Hiresperf.Foundation.Alternation
import Hiresperf.Foundation.OrderStatistics
import Hiresperf.Foundation.Pairing
import Hiresperf.LockAccounting
import Hiresperf.OutlierFilter
import Hiresperf.WaitBars
import Hiresperf.CoreFiles
import Hiresperf.MetricsPool
