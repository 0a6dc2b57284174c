import YNet.Cpp.Ascii
import YNet.Util.Url
import YNet.Util.Theorems.Url
import YNet.Lib.Fill
import YNet.Util.Theorems.Decode
import YNet.Util.Theorems.Query
import YNet.Lib.Search
import YNet.Util.Theorems.FormData
import YNet.Core.Config
import YNet.Core.Request
import YNet.Lib.Lines
import YNet.Core.Message
import YNet.Core.Theorems.Request.Headers
import YNet.Util.Theorems.MultipartParser
import YNet.Core.Theorems.Request.Parse
import YNet.Core.Theorems.Request.Form
import YNet.Core.Serialization
import YNet.Security.PathGuard
import YNet.Core.Theorems.Request.Roundtrip
import YNet.Core.Theorems.Request.Path
import YNet.Lib.Code
import YNet.Core.Response
import YNet.Core.Router
import YNet.Core.StaticFile
import YNet.Net.Connection
import YNet.Net.WebSocket
import YNet.Core.Server
import YNet.Core.Theorems.Server.Middlewares
import YNet.Core.Theorems.Server.Guard
import YNet.Core.Theorems.Server.Receive
import YNet.Core.Theorems.Server.KeepAlive
import YNet.Lib.TokenBucket
import YNet.Security.RateLimiter
import YNet.Security.Theorems.RateLimiter
import YNet.Lib.Run
import YNet.Security.Checks
import YNet.Security.Theorems.Checks
import YNet.Security.Csrf
import YNet.Security.SessionRun
import YNet.Security.Theorems.Session
import YNet.Security.Theorems.Csrf
import YNet.Cache.Cache
import YNet.Cache.Loads
import YNet.Cache.Theorems.Loads
import YNet.Core.Workers
import YNet.Core.Theorems.Workers.Exclusive
import YNet.Core.Theorems.Workers.Entries
import YNet.Lib.BigEndian
import YNet.Net.Frames
import YNet.Net.Theorems.Frames
import YNet.Net.Theorems.Reads
import YNet.Net.Theorems.Calls
import YNet.Cpp.Double
import YNet.Util.Json
import YNet.Util.Theorems.Json
import YNet.Net.Theorems.ThreadPool
import YNet.Net.Theorems.Writes
import YNet.Security.App
import YNet.Security.Theorems.App
import YNet.Core.Theorems.Router
import YNet.Core.Theorems.Replies
import YNet.Core.Theorems.Server.Upload
import YNet.Core.Theorems.Server.Headers
import YNet.Core.Theorems.Server.ContentLength
import YNet.Core.Theorems.Request.Accepted
import YNet.Core.Theorems.Request.Size
import YNet.Core.Theorems.Routes
import YNet.Core.ErrorRoute
import YNet.Core.Theorems.Server.ErrorPages
import YNet.Lib.Agree
import YNet.Util.TemplateEngine
import YNet.Util.Theorems.TemplateEngine
import YNet.Util.Theorems.Template.Raises
import YNet.Util.Theorems.Template.Unfinished
import YNet.Cache.Theorems.Recency
import YNet.Net.Theorems.Control
import YNet.Lib.Base64
import YNet.Util.Theorems.Crypto
import YNet.Core.Theorems.Server.WebSocket
import YNet.Util.Theorems.Template.Trees
import YNet.Util.Theorems.Template.Nesting
import YNet.Lib.Unicode
import YNet.Util.Theorems.Json.Escapes
import YNet.Util.Theorems.Json.Reads
import YNet.Util.Theorems.Json.Language
import YNet.Lib.JsonGrammar
import YNet.Util.Theorems.Json.Emits
import YNet.Util.Theorems.Json.Standard
import YNet.Security.Theorems.Cookies
import YNet.Security.Theorems.Decisions
import YNet.Lib.Ownership
import YNet.Net.ConnectionObject
import YNet.Net.Theorems.ConnectionObject
import YNet.Util.ConfigParser
import YNet.Util.FileSaver
import YNet.Util.Theorems.Boundary
import YNet.Util.Theorems.ConfigParser
import YNet.Util.Theorems.FileSaver
import YNet.Util.Theorems.Slices
import YNet.Util.Theorems.Uploads
import YNet.Cpp.Theorems.Double
import YNet.Util.Theorems.Json.Canonical
import YNet.Core.Protocol
import YNet.Core.System
import YNet.Core.Theorems.Protocol
import YNet.Core.Theorems.System
import YNet.Net.Signals
import YNet.Net.Theorems.Signals
import YNet.Security.Theorems.Budget
import YNet.Cache.Pages
import YNet.Cache.Theorems.Pages
import YNet.Core.Route
import YNet.Core.Theorems.Server.Conversation
import YNet.Core.Theorems.Served
import YNet.Net.Session
import YNet.Net.Theorems.Session
import YNet.Util.Theorems.Template.Partials
