import Asyncio.Concurrent.Program
import Asyncio.Concurrent.Outline
import Asyncio.Concurrent.Chain
import Asyncio.Combiner.Word
import Asyncio.Combiner.Code
import Asyncio.Combiner.Invariant
import Asyncio.Combiner.Outlines
import Asyncio.Combiner.Calls
import Asyncio.Combiner.Exclusive
import Asyncio.Reactor.Code
import Asyncio.Reactor.Account
import Asyncio.Reactor.Pass
import Asyncio.Reactor.Serving
import Asyncio.Reactor.System
import Asyncio.Reactor.CancelIo
import Asyncio.Reactor.Handles
import Asyncio.Wheel.Window
import Asyncio.Wheel.Grid
import Asyncio.Wheel.Sequential
import Asyncio.Wheel.Routing
import Asyncio.Wheel.Exact
import Asyncio.Timers.Code
import Asyncio.Timers.Invariant
import Asyncio.Timers.Changes
import Asyncio.Timers.Outlines
import Asyncio.Timers.Sweep
import Asyncio.Timers.Sleep
import Asyncio.Timers.System
import Asyncio.Coroutine.Code
import Asyncio.Coroutine.Count
import Asyncio.UserEvent.Code
import Asyncio.UserEvent.Instructions
import Asyncio.UserEvent.Semaphore
import Asyncio.UserEvent.Ownership
import Asyncio.UserEvent.Owners
import Asyncio.UserEvent.Timing
import Asyncio.UserEvent.Schedule
import Asyncio.Stream.Code
import Asyncio.Stream.Buffer
import Asyncio.Stream.Reads
import Asyncio.MessageLoop.Code
import Asyncio.MessageLoop.Doorbells
import Asyncio.UserEvent.Cancel
import Asyncio.UserEvent.Cancellation
import Asyncio.UserEvent.Rendezvous
import Asyncio.Wire.Bytes
import Asyncio.Wire.Machine
import Asyncio.Wire.Transport
import Asyncio.Zmtp.Code
import Asyncio.Zmtp.Receive
import Asyncio.Zmtp.Send
import Asyncio.Xmstream
import Asyncio.Btc.Code
import Asyncio.Btc.Messages
import Asyncio.Incremental.Scanner
import Asyncio.Incremental.Parser
import Asyncio.Http.Tokens
import Asyncio.Sorting.Buckets
import Asyncio.Http.HeaderTable
import Asyncio.Http.Lines
import Asyncio.Http.Response
import Asyncio.Incremental.Window
import Asyncio.Http.Client
import Asyncio.Http.ParseDefault
import Asyncio.Grammar.Span
import Asyncio.Uri.Code
import Asyncio.Grammar.Rfc3986
import Asyncio.Uri.Spans
import Asyncio.Uri.Hosts
import Asyncio.Uri.Split
import Asyncio.Uri.Parse
import Asyncio.Uri.Build
import Asyncio.Uri.Percent
import Asyncio.Uri.RoundTrip
import Asyncio.Grammar.Rfc5952
import Asyncio.Uri.Literals
import Asyncio.Uri.PaddedOctets
import Asyncio.Uri.HostPort
import Asyncio.Uri.Resume
import Asyncio.Http.Request
import Asyncio.Uri.QueryElements
import Asyncio.Http.Target
import Asyncio.Xmstream.Stream
import Asyncio.Xmstream.Scalars
import Asyncio.Zmtp.Ready
import Asyncio.Smtp.Base64
import Asyncio.Smtp.Mail
import Asyncio.Smtp.Replies
import Asyncio.Smtp.ReadResponse
