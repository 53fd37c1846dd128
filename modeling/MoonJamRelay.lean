import MoonJamRelay.Machine.Basic
import MoonJamRelay.Machine.Coupled
import MoonJamRelay.Machine.Family
import MoonJamRelay.Merge.Basic
import MoonJamRelay.History.Basic
import MoonJamRelay.Locks.Basic
import MoonJamRelay.Monitors.Basic
import MoonJamRelay.Semaphore.Basic
import MoonJamRelay.Pool.Basic
import MoonJamRelay.Pool.History
import MoonJamRelay.Data.UnorderedMap
import MoonJamRelay.Text.Decimal
import MoonJamRelay.Files.Basic
import MoonJamRelay.Keys.Basic
import MoonJamRelay.Packet.Basic
import MoonJamRelay.Packet.Copies
import MoonJamRelay.Relay.Accumulator
import MoonJamRelay.Relay.Server
import MoonJamRelay.Relay.Run
import MoonJamRelay.Relay.Invariant
import MoonJamRelay.Relay.Allocation
import MoonJamRelay.Relay.Lifetime
import MoonJamRelay.Relay.Capacity
import MoonJamRelay.Threads.State
import MoonJamRelay.Threads.Step
import MoonJamRelay.Threads.Inversion
import MoonJamRelay.Threads.Mutexes
import MoonJamRelay.Threads.RoomTable
import MoonJamRelay.Threads.Deadlock
import MoonJamRelay.Threads.Served
import MoonJamRelay.Threads.Delivery
import MoonJamRelay.Threads.Connections
import MoonJamRelay.Threads.Handlers
import MoonJamRelay.Threads.Refinement
import MoonJamRelay.Threads.Jobs
import MoonJamRelay.Threads.Handoff
import MoonJamRelay.Threads.Lives
import MoonJamRelay.Threads.Refusal
import MoonJamRelay.Threads.Ticks
import MoonJamRelay.Threads.Broadcast
import MoonJamRelay.Threads.Attendance
import MoonJamRelay.Threads.Payload
import MoonJamRelay.Threads.Admission
import MoonJamRelay.Api.KeyFile
import MoonJamRelay.Api.Server
import MoonJamRelay.Api.Readers
import MoonJamRelay.Api.Distinct
import MoonJamRelay.Api.Store
import MoonJamRelay.Api.Table
import MoonJamRelay.Api.Failures
import MoonJamRelay.Api.Ids
import MoonJamRelay.Requests.State
import MoonJamRelay.Requests.Step
import MoonJamRelay.Requests.Writers
import MoonJamRelay.Requests.Serial
import MoonJamRelay.Requests.Pairs
import MoonJamRelay.Requests.Recognised
import MoonJamRelay.Requests.Drawn
import MoonJamRelay.Program.Basic
import MoonJamRelay.Bytes.Basic
import MoonJamRelay.Websocket.Frame
import MoonJamRelay.Websocket.Masking
import MoonJamRelay.Text.Utf8
import MoonJamRelay.Websocket.Validator
import MoonJamRelay.Websocket.Processor
import MoonJamRelay.Websocket.Grammar
import MoonJamRelay.Websocket.Parsing
import MoonJamRelay.Websocket.Streaming
import MoonJamRelay.Websocket.Reading
import MoonJamRelay.Websocket.Limits
import MoonJamRelay.Websocket.Sending
import MoonJamRelay.Websocket.Writer
import MoonJamRelay.Websocket.Connection
import MoonJamRelay.Websocket.Effects
import MoonJamRelay.Websocket.Writes
import MoonJamRelay.Websocket.Callbacks
import MoonJamRelay.Websocket.Received
import MoonJamRelay.Server.Basic
import MoonJamRelay.Server.Step
import MoonJamRelay.Server.Linked
import MoonJamRelay.Server.Relayed
import MoonJamRelay.Server.Forwarded
import MoonJamRelay.Server.Complete
import MoonJamRelay.Links.Basic
import MoonJamRelay.Queue.Basic
import MoonJamRelay.Queue.Chain
import MoonJamRelay.Queue.Fifo
import MoonJamRelay.Queue.Ring
