import LinuxStudy.HeaderFraming
import LinuxStudy.SqlStatement
import LinuxStudy.StaleMemory
import LinuxStudy.DocumentRoot
import LinuxStudy.TruthfulResponse
import LinuxStudy.MethodCase
import LinuxStudy.PipeDeadlock
import LinuxStudy.CgiServer
import LinuxStudy.ServerIsolation
import LinuxStudy.QueryScanner
import LinuxStudy.PollBroadcast
import LinuxStudy.CondQueue
import LinuxStudy.SelectScan
import LinuxStudy.OpenConnections
import LinuxStudy.IndexPage
import LinuxStudy.DescriptorBalance
import LinuxStudy.EpollClients
import LinuxStudy.CrawlRows
import LinuxStudy.UrlFrontier
import LinuxStudy.BoundedFifo
import LinuxStudy.LineSplitting
import LinuxStudy.RequestPrinting
import LinuxStudy.BodyRelay
import LinuxStudy.QueryGrammar
import LinuxStudy.StaticFile
import LinuxStudy.PollInterest
import LinuxStudy.RemovalFrame
import LinuxStudy.ReadSegments
import LinuxStudy.WriteRounds
import LinuxStudy.DestroyedList
import LinuxStudy.QueryPointer
import LinuxStudy.CriticalSection
import LinuxStudy.BroadcastSafety
import LinuxStudy.PollServer2
import LinuxStudy.TinyResponse
import LinuxStudy.TinyPost
import LinuxStudy.FormSubmission
import LinuxStudy.SleepAlarm
import LinuxStudy.SemaphoreUndo
import LinuxStudy.ForkServer
import LinuxStudy.CrawlOrder
import LinuxStudy.DescriptorBounds
import LinuxStudy.EpollMemory
import LinuxStudy.PoolRace
import LinuxStudy.PoolProgress
import LinuxStudy.PoolSize
