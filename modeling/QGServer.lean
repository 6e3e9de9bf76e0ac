import QGServer.Core.Delivery
import QGServer.Core.Outbound
import QGServer.Core.PollTable
import QGServer.Core.Accepter
import QGServer.Core.EventLoop
import QGServer.Core.Dispatch
import QGServer.Core.Lifecycle
import QGServer.Core.GracefulClose
import QGServer.HttpParser.Segments
import QGServer.HttpParser.Messages
import QGServer.Http.Callbacks
import QGServer.Http.DocumentRoot
import QGServer.Http.HalfClose
import QGServer.Http.KeepAlive
import QGServer.Http.Segmentation
import QGServer.Http.Pipelining
import QGServer.Util.WriteContract
import QGServer.Core.FailedWrite
import QGServer.Http.Framing
import QGServer.Http.Files
import QGServer.Http.Routing
import QGServer.Http.Headers
import QGServer.Http.UrlParts
import QGServer.HttpParser.AcceptedUrl
import QGServer.Core.KqueuePoller
import QGServer.Core.Pollers
import QGServer.Core.PollTimeout
import QGServer.Base.PriorityQueue
import QGServer.Base.NextTime
import QGServer.Core.LoopTimers
import QGServer.Core.HandlerTables
import QGServer.Core.LoopThreadPool
import QGServer.Base.TimerFirings
import QGServer.HttpParser.ReadHeaders
import QGServer.HttpParser.ReadLines
import QGServer.HttpParser.RoundTrip
import QGServer.Http.StoreMessage
import QGServer.Http.Exchange
import QGServer.Core.Streams
import QGServer.Http.Answers
import QGServer.Util.BlockQueue
import QGServer.Core.Histories
import QGServer.Http.Clients
import QGServer.HttpParser.BodySizes
import QGServer.Core.Confinement
