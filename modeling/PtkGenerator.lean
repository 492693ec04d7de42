import PtkGenerator.Analysis.CacheTransparency
import PtkGenerator.Analysis.RemoteReader
import PtkGenerator.Analysis.SpliterStream
import PtkGenerator.Analysis.RingDelivery
import PtkGenerator.Analysis.LocalPipeline
import PtkGenerator.Analysis.PoolConservation
import PtkGenerator.Analysis.ReceiveLoop
import PtkGenerator.Analysis.DistributedDecode
import PtkGenerator.Analysis.WireFormat
import PtkGenerator.Analysis.HostileFrames
import PtkGenerator.Analysis.ReportCounts
import PtkGenerator.Analysis.CollectedFiles
import PtkGenerator.Analysis.IdlePolls
import PtkGenerator.Analysis.InitInvalidation
import PtkGenerator.Analysis.ConcurrentSenders
import PtkGenerator.Analysis.ChunkDelivery
import PtkGenerator.Analysis.AcceptLimit
import PtkGenerator.Analysis.ChunkPlacement
import PtkGenerator.Analysis.DeadAgents
import PtkGenerator.Analysis.StopDrain
import PtkGenerator.Analysis.SweepStop
import PtkGenerator.Analysis.PageReads
import PtkGenerator.Analysis.PageFrontier
import PtkGenerator.Analysis.ReplyLength
import PtkGenerator.Analysis.MergeAtomic
import PtkGenerator.Analysis.ModuleLookup
import PtkGenerator.Analysis.ReportOrder
import PtkGenerator.Analysis.PendingEvents
import PtkGenerator.Analysis.DecodeTotal
import PtkGenerator.Analysis.OnlineEnds
import PtkGenerator.Analysis.NetworkConservation
import PtkGenerator.Analysis.NetworkDrains
import PtkGenerator.Analysis.NetworkLeft
import PtkGenerator.Analysis.ConnDrains
import PtkGenerator.Analysis.CollectorStreams
import PtkGenerator.Analysis.ServerConserves
import PtkGenerator.Analysis.ServerEnds
import PtkGenerator.Analysis.ServerPanics
import PtkGenerator.Analysis.StoppedPool
import PtkGenerator.Analysis.MessagesArrive
import PtkGenerator.Analysis.UniqueAddresses
import PtkGenerator.Analysis.ServerReport
import PtkGenerator.Analysis.ConnEnds
import PtkGenerator.Analysis.RemoteDecode
import PtkGenerator.Analysis.RemoteCalls
import PtkGenerator.Analysis.WritersCatchUp
import PtkGenerator.Analysis.DecodingPipeline
