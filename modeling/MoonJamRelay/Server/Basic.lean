import MoonJamRelay.Machine.Coupled
import MoonJamRelay.Machine.Family
import MoonJamRelay.Threads.Step
import MoonJamRelay.Websocket.Connection

/-!
# The relay with its connections

The relay knows a connection by its handle; behind the handle there is a connection of the websocket
library, with a reader and a queue. One asio thread runs the handlers of all of them, and it is the
relay thread whenever one of them calls a listener of the relay.

* `System.refusal`, `System.sendOf` : the calls of `RelayServer::close` and `RelayServer::send` in
  the next steps of the threads.
* `Server.reports` : the listeners that a connection calls, and the end of its session.
* `Server.moves` : which steps of the relay and of the connections are one step of the program.
* `relayServer` : the machine.
-/

namespace MoonJamRelay

open Websocket (Connection Callback)

/-- The bytes of the reason a client is closed with. -/
def Reply.reason (reply : Reply) : List UInt8 :=
  (reply.closeReason.map fun s => utf8 s.toList).getD []

namespace System

/-- The `close` that the next section of the relay thread calls. -/
def refusal (s : System) : Option (ConnectionHdl × Reply) :=
  match s.relayPc with
  | .getIdentifier handle message =>
    if s.server.getIdentifier handle ≠ 0 ∧ message.length < hashLength then
      some (handle, .tooShort)
    else none
  | .getRoom handle message _ =>
    if s.keys.getRoom (Hash.ofBytes message) = Hash.empty then some (handle, .unknownKey) else none
  | .hasRoom r =>
    if ¬ s.server.hasRoom r.room ∧ ¬ r.moonClient then some (r.handle, .noRoom r.room) else none
  | .countConnections r limit =>
    if ¬ r.moonClient ∧
        s.accumulator.getConnectionCountWithoutConnection r.identifier r.room ≥ limit then
      some (r.handle, .full r.room)
    else none
  | _ => none

/-- The `close` that the next step of the relay thread calls: it has locked the mutex of its
section. -/
def closing (s : System) : Option (ConnectionHdl × Reply) :=
  if s.relayPc.wants.all fun m => s.owner m = some .relay then s.refusal else none

/-- The `send` that the next step of a worker calls. -/
def sendOf (s : System) (k : Fin threadCount) : Option (ConnectionHdl × List UInt8) :=
  match (s.workers k).pc with
  | .call (some a) =>
    (s.workers k).job.bind fun j => (s.jobConnection j).map fun c => (c.handle, a.bytes)
  | _ => none

end System

/-- The connections behind the handles. -/
abbrev Connections := ConnectionHdl → Connection

/-- What happens next. -/
inductive ServerLabel where
  /-- A connection is accepted, the key table is replaced, or a thread of the relay steps. -/
  | relay (l : Label)
  /-- Something happens at a connection. -/
  | connection (handle : ConnectionHdl) (e : Websocket.Event)
  deriving DecidableEq

namespace Server

/-- The listener of the relay that a handler of a connection calls; the open handler was called when
the connection was accepted. -/
def listener (handle : ConnectionHdl) : Callback → Option Label
  | .opened => none
  | .message m => some (.onMessage handle m.payload)
  | .closed => some (.onClose handle)

/-- The listeners that a connection calls, and the end of its session. -/
def reports (handle : ConnectionHdl) (c c' : Connection) : List Label :=
  (c'.callbacks.drop c.callbacks.length).filterMap (listener handle) ++
    if c.state = .opened ∧ c'.state ≠ .opened then [.endSession handle] else []

/-- A worker is in a call of `send`. -/
def Sending (s : System) (cs : Connections) (k : ℕ) : Prop :=
  ∃ handle ∈ s.opened, (cs handle).senders k ≠ none

instance (s : System) (cs : Connections) (k : ℕ) : Decidable (Sending s cs k) :=
  inferInstanceAs (Decidable (∃ handle ∈ s.opened, (cs handle).senders k ≠ none))

/-- The asio thread is in no handler, except in one of this connection. -/
def Free (s : System) (cs : Connections) (handle : ConnectionHdl) : Prop :=
  s.relayPc = .idle ∧ ∀ h ∈ s.opened, h ≠ handle → (cs h).io = []

instance (s : System) (cs : Connections) (handle : ConnectionHdl) :
    Decidable (Free s cs handle) :=
  inferInstanceAs (Decidable (_ ∧ _))

/-- What a step is for the relay and for the connections. -/
def moves (s : System) (cs : Connections) :
    ServerLabel → Option (List Label × List (ConnectionHdl × Websocket.Event))
  | .relay (.onOpen handle) => if Free s cs handle then some ([.onOpen handle], []) else none
  | .relay .relay =>
    -- `RelayServer::close` looks at the state and closes; no other thread writes the state
    match s.closing with
    | none => some ([.relay], [])
    | some (handle, reply) =>
      some ([.relay], [.handlerClose reply.reason, .io, .io].map fun e => (handle, e))
  | .relay (.worker k) =>
    if Sending s cs k then none
    else
      -- `RelayServer::send` looks at the state, and goes on in `connection::send`
      match s.sendOf k with
      | none => some ([.worker k], [])
      | some (handle, data) =>
        some ([.worker k], [.call k data, .sender k].map fun e => (handle, e))
  | .relay (.room t) => some ([.room t], [])
  | .relay (.refreshKeys table) => some ([.refreshKeys table], [])
  | .relay _ => none
  | .connection handle e =>
    if handle ∉ s.opened then none
    else
      match e with
      | .call .. | .handlerSend _ | .handlerClose _ => none
      | .sender _ | .transmit .. => some ([], [(handle, e)])
      | _ =>
        if Free s cs handle then
          ((cs handle).next e).map fun c => (reports handle (cs handle) c, [(handle, e)])
        else none

end Server

/-- The relay with its connections. -/
def relayServer (keys : KeyManager) : Machine (System × Connections) ServerLabel :=
  Machine.couple (relaySystem keys) (Websocket.connection.family ConnectionHdl) Server.moves

end MoonJamRelay
