import MoonJamRelay.Machine.Basic
import MoonJamRelay.Websocket.Writer
import Mathlib.Logic.Function.Basic

/-!
# A connection of the server

A connection after its handshake. The asio thread runs its handlers one at a time; workers call
`send` at the same time. What a thread still has to do in a call is a list of tasks, cut where the
code locks a mutex or reads the state of the connection again; a task is one step.

* `Connection` : the state of a connection, with its processor and its writer.
* `Connection.exec` : what a task does, and what it leaves to be done.
* `Event`, `connection` : the machine. The network, the timers and the handler of the messages do
  what they like; the handler may send messages, and close the connection as the relay does.

The relay holds a weak handle, and keeps no reference to the connection while it uses it. The handle
of a connection that was destroyed has expired, and then nothing happens, as for one that is not
open. Assumed is that no connection is destroyed between `expired()` and the end of the call; the
code would follow a null or a dangling pointer then.
-/

namespace MoonJamRelay

namespace Websocket

/-- `session::state`, after the handshake. -/
inductive SessionState where
  | opened | closing | closed
  deriving DecidableEq

/-- What a thread is about to do. -/
inductive Task where
  /-- `RelayServer::send`: look at the state, if the connection was not destroyed; it is not
  destroyed before the call is over. -/
  | relaySend (data : List UInt8)
  /-- `connection::send`: look at the state. -/
  | send (data : List UInt8)
  /-- `connection::send`: prepare and push, under the write lock. -/
  | prepareData (m : Message)
  /-- Push a prepared message, under the write lock. -/
  | push (m : Message)
  /-- `dispatch` a call of `write_frame`. -/
  | dispatch
  /-- `handle_write_frame`: give back the write flag, under the write lock. -/
  | releaseWrite
  /-- `handle_read_frame`: a message was read. -/
  | message (m : Message)
  /-- The message handler is running. -/
  | handler
  /-- `RelayServer::close`, with `internal_endpoint_error` as everywhere: look at the state. The
  asio thread is in a handler of the connection, which is not destroyed meanwhile. -/
  | relayClose (reason : List UInt8)
  /-- `connection::close` for it, which throws its error. -/
  | close (reason : List UInt8)
  /-- `handle_read_frame`: the bytes were refused. -/
  | protocolError (e : ProcessorError)
  /-- `read_frame`. -/
  | readFrame
  deriving DecidableEq

/-- The handlers that the connection has called. -/
inductive Callback where
  | opened
  | message (m : Message)
  | closed
  deriving DecidableEq

/-- A connection. -/
structure Connection where
  /-- `m_state`. -/
  state : SessionState
  /-- `m_was_clean`. -/
  wasClean : Bool
  /-- `m_remote_close_code`. -/
  remoteCloseCode : UInt16
  /-- `m_remote_close_reason`. -/
  remoteCloseReason : List UInt8
  /-- The timer of the close handshake is running. -/
  handshakeTimer : Bool
  /-- The socket was shut down, and `handle_terminate` has not run. -/
  shutdown : Bool
  /-- An exception has left a handler, which ends the thread. -/
  crashed : Bool
  /-- The transport is reading. -/
  reading : Bool
  processor : Processor
  writer : Writer
  /-- What the asio thread has to do before the next handler. -/
  io : List Task
  /-- What the other threads that call `send` have to do. -/
  senders : ℕ → Option Task
  /-- What was read; no code keeps it. -/
  reads : List (List UInt8)
  /-- The calls of the handlers; no code keeps them. -/
  callbacks : List Callback

/-- The role and the message size of the servers. -/
def serverConfig : Config := ⟨true, 32000000⟩

/-- `error::message`. -/
def ProcessorError.message : ProcessorError → String
  | messageTooBig => "A message was too large"
  | invalidPayload => "A payload contained invalid data"
  | invalidOpcode => "invalid opcode"
  | controlTooBig => "Control messages are limited to fewer than 125 characters"
  | invalidRsvBit => "Invalid use of reserved bits"
  | fragmentedControl => "Control messages cannot be fragmented"
  | invalidContinuation => "Invalid message continuation"
  | maskingRequired => "Clients may not send unmasked frames"
  | maskingForbidden => "Servers may not send masked frames"
  | nonMinimalEncoding => "Payload length was not minimally encoded"
  | invalidUtf8 => "Invalid UTF8 encoding"
  | reservedCloseCode => "Reserved close code used"
  | invalidCloseCode => "Invalid close code used"
  | reasonRequiresCode => "Using a close reason requires a valid close code"

/-- `error::to_ws`. -/
def ProcessorError.toWs : ProcessorError → UInt16
  | controlTooBig | invalidOpcode | invalidRsvBit | fragmentedControl | invalidContinuation
  | maskingRequired | maskingForbidden | reservedCloseCode | invalidCloseCode =>
    CloseStatus.protocolError
  | invalidPayload | invalidUtf8 => CloseStatus.invalidPayload
  | messageTooBig => CloseStatus.messageTooBig
  | nonMinimalEncoding | reasonRequiresCode => CloseStatus.internalEndpointError

namespace Connection

/-- A connection whose open handler was called; the rest of the handshake's bytes are read next. -/
def new : Connection where
  state := .opened
  wasClean := false
  remoteCloseCode := CloseStatus.abnormalClose
  remoteCloseReason := []
  handshakeTimer := false
  shutdown := false
  crashed := false
  reading := true
  processor := .new
  writer := .new
  io := []
  senders := fun _ => none
  reads := []
  callbacks := [.opened]

/-! ### Writing -/

/-- A section under the write lock that pushes a message and computes `needs_writing`. -/
def push (c : Connection) (m : Message) : Connection × Option Task :=
  let writer := c.writer.writePush m
  ({ c with writer := writer }, if writer.needsWriting then some .dispatch else none)

/-- The section of `handle_write_frame` under the write lock. -/
def releaseWrite (c : Connection) : Connection × Option Task :=
  let writer := c.writer.releaseFlag
  ({ c with writer := writer }, if writer.needsWriting then some .dispatch else none)

/-! ### Closing -/

/-- `terminate`: shut down the socket, unless that was done before. -/
def terminate (c : Connection) : Connection :=
  if c.state = .closed then { c with handshakeTimer := false }
  else { c with state := .closed, handshakeTimer := false, shutdown := true }

/-- The code and the reason that `send_close_frame` sends. -/
def closeInfo (c : Connection) (code : UInt16) (reason : List UInt8) (ack : Bool) :
    UInt16 × List UInt8 :=
  if code ≠ CloseStatus.blank then (code, reason)
  else if ¬ ack then (CloseStatus.noStatus, [])
  else if c.remoteCloseCode = CloseStatus.noStatus then (CloseStatus.normal, [])
  else (c.remoteCloseCode, c.remoteCloseReason)

/-- `send_close_frame`, up to the section under the write lock; `none` for an error. -/
def sendCloseFrame (c : Connection) (code : UInt16) (reason : List UInt8) (ack terminal : Bool) :
    Option (Connection × Option Task) :=
  let info := c.closeInfo code reason ack
  match prepareClose serverConfig .zero info.1 info.2 with
  | .error _ => none
  | .ok m =>
    some
      ({ c with state := .closing, wasClean := c.wasClean || ack, handshakeTimer := true },
        some (.push { m with terminal := terminal }))

/-- `send_close_ack`: a server's is terminal, and an error is only logged. -/
def sendCloseAck (c : Connection) (code : UInt16) (reason : List UInt8) :
    Connection × Option Task :=
  (c.sendCloseFrame code reason true serverConfig.server).getD (c, none)

/-- `close`; `none` for an error. The state lock is held until the message was pushed, but no other
thread writes the state. -/
def close (c : Connection) (code : UInt16) (reason : List UInt8) :
    Option (Connection × Option Task) :=
  if c.state ≠ .opened then none
  else c.sendCloseFrame code (reason.take closeReasonSize) false (CloseStatus.terminal code)

/-- `handle_read_frame`, when the processor has refused the bytes. -/
def protocolError (c : Connection) (e : ProcessorError) : Connection × Option Task :=
  (c.close e.toWs (utf8 e.message.toList)).getD (c.terminate, none)

/-! ### Control frames -/

/-- `pong`, up to the section under the write lock. -/
def pong (c : Connection) (payload : List UInt8) : Connection × Option Task :=
  if c.state ≠ .opened then (c, none)
  else
    match preparePong serverConfig .zero payload with
    | .error _ => (c, none)
    | .ok m => (c, some (.push m))

/-- `process_control_frame` for a close. -/
def processClose (c : Connection) (payload : List UInt8) : Connection × Option Task :=
  let code := extractCode payload
  let c := { c with remoteCloseCode := code.1 }
  if code.2.isSome then
    c.sendCloseAck CloseStatus.protocolError (utf8 "Invalid close code".toList)
  else
    let reason := extractReason payload
    let c := { c with remoteCloseReason := reason.1 }
    if reason.2.isSome then
      c.sendCloseAck CloseStatus.protocolError (utf8 "Invalid close reason".toList)
    else if c.state = .opened then c.sendCloseAck CloseStatus.blank []
    else if c.state = .closing ∧ ¬ c.wasClean then
      -- a server does not wait for the other side to close the socket
      let c := { c with wasClean := true }
      (if serverConfig.server then c.terminate else c, none)
    else (c, none)

/-- `process_control_frame`. There is no ping handler, so pings are answered, and no pong
handler. -/
def processControlFrame (c : Connection) (m : Message) : Connection × Option Task :=
  if c.state = .closed then (c, none)
  else if m.opcode ≠ .close ∧ c.state ≠ .opened then (c, none)
  else if m.opcode = .ping then c.pong m.payload
  else if m.opcode = .close then c.processClose m.payload
  else (c, none)

/-- What `handle_read_frame` does with a message. -/
def handleMessage (c : Connection) (m : Message) : Connection × Option Task :=
  if m.opcode.isControl then c.processControlFrame m
  else if c.state ≠ .opened then (c, none)
  else ({ c with callbacks := c.callbacks ++ [.message m] }, some .handler)

/-! ### The tasks -/

/-- What a task does, and what it leaves to be done before the other tasks of its thread. -/
def exec (c : Connection) : Task → Connection × Option Task
  | .relaySend data => if c.state ≠ .opened then (c, none) else (c, some (.send data))
  | .send data =>
    if c.state ≠ .opened then (c, none)
    else (c, some (.prepareData { opcode := .binary, payload := data }))
  | .prepareData m =>
    match prepareDataFrame serverConfig .zero m with
    | .error _ => (c, none)
    | .ok out => c.push out
  | .push m => c.push m
  | .dispatch => ({ c with writer := c.writer.post }, none)
  | .releaseWrite => c.releaseWrite
  | .message m => c.handleMessage m
  | .handler => (c, none)
  | .relayClose reason =>
    if c.state ≠ .opened then (c, none)
    else (c, some (.close reason))
  | .close reason =>
    (c.close CloseStatus.internalEndpointError reason).getD ({ c with crashed := true }, none)
  | .protocolError e => c.protocolError e
  | .readFrame => ({ c with reading := true }, none)

/-! ### The handlers of the asio thread -/

/-- `handle_read_frame`: the messages of the bytes, and then the next read unless the bytes were
refused. The processor does not depend on what the messages do. -/
def handleReadFrame (c : Connection) (bytes : List UInt8) : Connection :=
  let read := c.processor.readMessages serverConfig bytes
  let c := { c with reading := false, reads := c.reads ++ [bytes] }
  match read.2 with
  | .error e => { c with io := read.1.map Task.message ++ [.protocolError e] }
  | .ok p => { c with processor := p, io := read.1.map Task.message ++ [.readFrame] }

/-- `handle_write_frame`, up to the section under the write lock. -/
def handleWriteFrame (c : Connection) (failed : Bool) : Connection :=
  let c' := { c with writer := c.writer.clearCurrent }
  if failed then c'.terminate
  else if c.writer.terminal then c'.terminate
  else { c' with io := [.releaseWrite] }

end Connection

/-- What happens next. -/
inductive Event where
  /-- The asio thread goes on in its handler. -/
  | io
  /-- A thread that calls `send` goes on. -/
  | sender (k : ℕ)
  /-- A thread calls `RelayServer::send`. -/
  | call (k : ℕ) (data : List UInt8)
  /-- A read ends with bytes. -/
  | read (bytes : List UInt8)
  /-- A read ends with an error. -/
  | readFailed
  /-- The timer of the close handshake expires. -/
  | timeout
  /-- A call of `write_frame` that was posted begins. -/
  | writeFrame
  /-- The transport writes bytes. -/
  | transmit (i n : ℕ)
  /-- A write ends. -/
  | endWrite (i : ℕ) (failed : Bool)
  /-- The shutdown is complete: `handle_terminate`. The transport calls it at once, or when the
  shutdown has timed out. -/
  | shutdown
  /-- The message handler calls `connection::send`. -/
  | handlerSend (data : List UInt8)
  /-- The message handler calls `RelayServer::close`. -/
  | handlerClose (reason : List UInt8)
  deriving DecidableEq

namespace Connection

/-- The state after an event. -/
def next (c : Connection) : Event → Option Connection
  | .io =>
    match c.io with
    | [] => none
    | t :: rest => some { (c.exec t).1 with io := (c.exec t).2.toList ++ rest }
  | .sender k =>
    (c.senders k).map fun t =>
      { (c.exec t).1 with senders := Function.update c.senders k (c.exec t).2 }
  | .call k data =>
    if c.senders k = none then
      some { c with senders := Function.update c.senders k (some (.relaySend data)) }
    else none
  | .read bytes => if c.reading = true ∧ c.io = [] then some (c.handleReadFrame bytes) else none
  | .readFailed =>
    if c.reading = true ∧ c.io = [] then some { c with reading := false }.terminate else none
  | .timeout => if c.handshakeTimer = true ∧ c.io = [] then some c.terminate else none
  | .writeFrame =>
    if 0 < c.writer.posted ∧ c.io = [] then some { c with writer := c.writer.unpost.writeFrame }
    else none
  | .transmit i n => (c.writer.transmit i n).map fun w => { c with writer := w }
  | .endWrite i failed =>
    if c.io = [] then
      (c.writer.endWrite i failed).map fun w => { c with writer := w }.handleWriteFrame failed
    else none
  | .shutdown =>
    if c.shutdown then some { c with shutdown := false, callbacks := c.callbacks ++ [.closed] }
    else none
  | .handlerSend data =>
    if c.io.head? = some .handler then some { c with io := .send data :: c.io } else none
  | .handlerClose reason =>
    if c.io.head? = some .handler then some { c with io := .relayClose reason :: c.io } else none

end Connection

/-- A connection as a machine. -/
def connection : Machine Connection Event := ⟨.new, Connection.next⟩

end Websocket

end MoonJamRelay
