import Ruvia.Http.RequestFraming
import Ruvia.Http.Websocket.CloseMachine
import Ruvia.Http.RequestContentWriter
import Ruvia.Core.OneShot
import Ruvia.Core.Channel
import Ruvia.Core.PoolLease
import Ruvia.Core.WorkerQueue
import Ruvia.Web.StatementCacheRuns
import Ruvia.Web.QueryCacheRuns
import Ruvia.Http.CapsuleContract
import Ruvia.Web.ForwardedClient
import Ruvia.Web.RedisQueryContract
import Ruvia.Web.DollarQuoting
import Ruvia.Web.QueryCacheKey
import Ruvia.Http.RequestTrailers
import Ruvia.Web.StatementTraits
import Ruvia.Web.UrlFor
import Ruvia.Web.ScanRuns
import Ruvia.Web.RetryAfter
import Ruvia.Web.RespCommand
import Ruvia.Web.StaticPath
import Ruvia.Http.IpLiterals
import Ruvia.Web.JwtDate
import Ruvia.Web.PatternMatch
import Ruvia.Http.MultipartRangeReading
import Ruvia.Http.Http2OutputRuns
import Ruvia.Http.Http2StreamTableRuns
import Ruvia.Core.StopTokenRuns
import Ruvia.Core.LocalRingQueue
import Ruvia.Web.StaticChildren
import Ruvia.Http.Base64Decoder
import Ruvia.Http.Sse
import Ruvia.Http.Date
import Ruvia.Http.HttpIoBuffer
import Ruvia.Http.RedirectLoop
import Ruvia.Http.Priority
import Ruvia.Web.SlotPool
