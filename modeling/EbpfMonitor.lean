import EbpfMonitor.Lib.Runs
import EbpfMonitor.Lib.Circular
import EbpfMonitor.SpscRing
import EbpfMonitor.SpscRefinement
import EbpfMonitor.SpscInterleaving
import EbpfMonitor.MemoryPool
import EbpfMonitor.BatchProcessor
import EbpfMonitor.Lib.BoundedMap
import EbpfMonitor.TcpTracer
import EbpfMonitor.Lib.Tally
import EbpfMonitor.ThreadPool
import EbpfMonitor.ThreadPoolWakeup
import EbpfMonitor.Lib.Decimal
import EbpfMonitor.StatsReporter
import EbpfMonitor.Outputs
import EbpfMonitor.HttpServer
import EbpfMonitor.BatchCalls
import EbpfMonitor.BatchNoDrop
import EbpfMonitor.EventLoop
import EbpfMonitor.RunMonitor
import EbpfMonitor.Lib.TableSum
import EbpfMonitor.Totals
import EbpfMonitor.Lib.Exposition
import EbpfMonitor.MetricsText
import EbpfMonitor.Scrape
import EbpfMonitor.Lib.Json
import EbpfMonitor.JsonOutputs
import EbpfMonitor.Lib.GroupFold
import EbpfMonitor.Aggregation
import EbpfMonitor.CounterSeries
import EbpfMonitor.Lib.PerCpuMap
import EbpfMonitor.NetStats
import EbpfMonitor.ThreadPoolSections
import EbpfMonitor.RingObserver
import EbpfMonitor.StalePending
import EbpfMonitor.Lib.Cut
import EbpfMonitor.Lib.HttpMessage
import EbpfMonitor.HttpProtocol
import EbpfMonitor.Lib.Tenure
import EbpfMonitor.DescriptorReuse
import EbpfMonitor.Resources
import EbpfMonitor.Lib.SharedMutex
import EbpfMonitor.RequestStats
import EbpfMonitor.RequestTimer
import EbpfMonitor.Lib.SortByKey
import EbpfMonitor.TopConnections
import EbpfMonitor.FilterOptions
import EbpfMonitor.Lib.ReleaseAcquire
import EbpfMonitor.SpscMemoryOrder
import EbpfMonitor.SpscCircuit
import EbpfMonitor.BatchMemoryOrder
import EbpfMonitor.ThreadPoolLiveness
import EbpfMonitor.Lib.RingBuffer
import EbpfMonitor.SyscallAudit
import EbpfMonitor.TracerInterleaving
import EbpfMonitor.Pipeline
import EbpfMonitor.HttpAnswers
import EbpfMonitor.MonitorLoop
import EbpfMonitor.EventLog
import EbpfMonitor.BatchProgress
import EbpfMonitor.ServerShutdown
import EbpfMonitor.ProcessorScrape
