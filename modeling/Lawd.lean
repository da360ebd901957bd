import Lawd.Library.System
import Lawd.Library.Registry
import Lawd.Library.Ledger
import Lawd.Library.Lifetime
import Lawd.Library.Placement
import Lawd.Library.Links
import Lawd.Library.Bytes
import Lawd.Library.KeyedMap
import Lawd.Library.PriorityQueue
import Lawd.Library.Search
import Lawd.Library.ByteBuffer
import Lawd.Library.Retry
import Lawd.Library.Peg
import Lawd.Library.Grammar
import Lawd.Library.Lines
import Lawd.Library.Pieces
import Lawd.Library.Trim
import Lawd.Library.Writing
import Lawd.Library.Base64
import Lawd.Library.Machine
import Lawd.Base
import Lawd.ErrorStack
import Lawd.Table
import Lawd.Slot
import Lawd.Task
import Lawd.Pool
import Lawd.PoolCalls
import Lawd.Worker
import Lawd.Turn
import Lawd.WorkerSteps
import Lawd.WorkerInv
import Lawd.Server
import Lawd.ServerTurn
import Lawd.ServerSteps
import Lawd.Conservation
import Lawd.Suspension
import Lawd.Events
import Lawd.Admission
import Lawd.Isolation
import Lawd.Threads
import Lawd.Shutdown
import Lawd.Jobs
import Lawd.Opening
import Lawd.Creation
import Lawd.HttpCreation
import Lawd.Spawn
import Lawd.Accept
import Lawd.Dispatch
import Lawd.Push
import Lawd.Finish
import Lawd.Deadlines
import Lawd.Waiting
import Lawd.Tick
import Lawd.Schedule
import Lawd.Stale
import Lawd.Progress
import Lawd.Ending
import Lawd.Prompt
import Lawd.Coroutine
import Lawd.Switching
import Lawd.Sync
import Lawd.Buffer
import Lawd.HttpConn
import Lawd.HtsEntry
import Lawd.ReadScan
import Lawd.EnsureInput
import Lawd.WebSocket
import Lawd.Masking
import Lawd.Uri
import Lawd.IpAddress
import Lawd.Ipv6
import Lawd.UriLanguage
import Lawd.UriParts
import Lawd.Query
import Lawd.Http
import Lawd.HttpServer
import Lawd.ReadHead
import Lawd.Sessions
import Lawd.HeaderField
import Lawd.Reqline
import Lawd.BlockingReads
import Lawd.UriPrint
import Lawd.Target
import Lawd.Response
import Lawd.Output
import Lawd.Echo
import Lawd.WsQueue
import Lawd.Delivery
import Lawd.Frames
import Lawd.Handshake
