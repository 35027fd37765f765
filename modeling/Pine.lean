import Pine.Http.Truncation
import Pine.Http.Reparse
import Pine.Http.Totality
import Pine.Http.FirstLine
import Pine.Http.Injection
import Pine.Http.Partition
import Pine.Http.ContentLength
import Pine.Http.Errors
import Pine.Http.Growth
import Pine.Http.Building
import Pine.Http.Verbatim
import Pine.Pool.Service
import Pine.Pool.Wakeup
import Pine.Pool.Quiescence
import Pine.Async.Await
import Pine.Async.Frames
import Pine.Async.Ownership
import Pine.Async.Sharing
import Pine.Async.Shutdown
import Pine.Net.Sending
import Pine.Net.Framing
import Pine.Net.RawMessages
import Pine.Net.Snowflake
import Pine.Net.Consumers
import Pine.Net.Exchange
import Pine.Net.Session
import Pine.Net.Bodies
import Pine.Server.Listening
import Pine.Server.Sockets
import Pine.Server.Stop
import Pine.Server.Locking
import Pine.Server.Passes
import Pine.Server.Deadlock
import Pine.Server.Serving
