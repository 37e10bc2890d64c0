import WebServer.Monitor
import WebServer.MonitorRules
import WebServer.Counting
import WebServer.Wakeups
import WebServer.ServerLog
import WebServer.LogLock
import WebServer.LogProgress
import WebServer.LogBuffer
import WebServer.LogContent
import WebServer.LogHistory
import WebServer.LogAtomic
import WebServer.LogPriority
import WebServer.RingBuffer
import WebServer.RequestQueue
import WebServer.QueueRefinement
import WebServer.QueueWakeups
import WebServer.Message
import WebServer.Process
import WebServer.Segel
import WebServer.RequestHandle
import WebServer.HeaderReading
import WebServer.Answers
import WebServer.Framing
import WebServer.DynamicResponse
import WebServer.LogEntries
import WebServer.Potential
import WebServer.ConnectionErrors
import WebServer.Paths
import WebServer.RelatedRequests
import WebServer.PublicFiles
import WebServer.StdoutBuffer
import WebServer.ClientRequest
import WebServer.StaleBuffers
import WebServer.StaticFailures
import WebServer.Alone
import WebServer.LogCalls
import WebServer.LogLength
import WebServer.Histories
import WebServer.Statistics
import WebServer.Programs
import WebServer.RequestCalls
import WebServer.Sessions
import WebServer.Server
import WebServer.ServerSteps
import WebServer.Connections
import WebServer.Accounting
import WebServer.EndOfFile
import WebServer.Visibility
import WebServer.RequestUris
import WebServer.NameLengths
import WebServer.ErrorPages
import WebServer.HeaderFraming
import WebServer.LargeFiles
import WebServer.QueueRoom
import WebServer.StatsText
import WebServer.Timestamps
import WebServer.Timevals
import WebServer.RioBuffer
import WebServer.LogGrowth
import WebServer.Linearizability
import WebServer.LogObject
import WebServer.LogSafety
import WebServer.Numerals
import WebServer.ClientPrint
import WebServer.RoundTrip
import WebServer.Transcripts
import WebServer.ServedRequests
import WebServer.RioCalls
import WebServer.LogTermination
import WebServer.PostOrder
import WebServer.LogRecords
import WebServer.Startup
import WebServer.PendingCalls
import WebServer.ServerDrain
