import MoonJamRelay.Machine.Basic
import MoonJamRelay.Relay.Server

/-!
# Runs of the relay server

`relay` is the relay thread between its handler calls: the websocket library calls `onOpen` once for
a connection, then `onMessage` any number of times, then `onClose` once.  Between two calls a room
thread may take the packets of its room (`getPackets`); the key table may change at any time, so
every message carries the tables it meets.

Beside the state of the server a `World` holds which connections were opened and which of them are
still open, and a history of the replies and of the destroyed rooms, newest first.  None of it is
read by the handlers.
-/

namespace MoonJamRelay

/-- What a run leaves in the history. -/
inductive Event where
  /-- `onMessage` for the connection ended with the reply. -/
  | replied (handle : ConnectionHdl) (reply : Reply)
  /-- `onClose` destroyed the room. -/
  | destroyed (room : Hash)
  deriving DecidableEq

/-- The relay between two handler calls. -/
structure World where
  /-- The state of the server. -/
  server : RelayServer
  /-- The connections opened so far. -/
  opened : List ConnectionHdl
  /-- The connections opened and not closed. -/
  connected : List ConnectionHdl
  /-- What happened so far, newest first. -/
  history : List Event

/-- The calls of the websocket library, and the part of a tick that changes a table. -/
inductive Call where
  | onOpen (handle : ConnectionHdl)
  | onClose (handle : ConnectionHdl)
  | onMessage (handle : ConnectionHdl) (message : List UInt8) (atRoom atLimit : KeyManager)
  | getPackets (room : Hash)
  deriving DecidableEq

namespace World

/-- The world when the program starts. -/
def init : World := ⟨.init, [], [], []⟩

/-- A connection may be opened: it is a new one, and its address is not the address of a connection
that is still open. -/
def Fresh (w : World) (handle : ConnectionHdl) : Prop :=
  handle ∉ w.opened ∧ ∀ c ∈ w.connected, c.pointer ≠ handle.pointer

instance (w : World) (handle : ConnectionHdl) : Decidable (w.Fresh handle) :=
  inferInstanceAs (Decidable (_ ∧ _))

/-- The world after a call. -/
def next (w : World) : Call → Option World
  | .onOpen handle =>
    if w.Fresh handle then
      some { w with
        server := w.server.onOpen handle
        opened := handle :: w.opened
        connected := handle :: w.connected }
    else none
  | .onClose handle =>
    if handle ∈ w.connected then
      some { w with
        server := (w.server.onClose handle).1
        connected := w.connected.filter fun c => c ≠ handle
        history := ((w.server.onClose handle).2.map Event.destroyed).toList ++ w.history }
    else none
  | .onMessage handle message atRoom atLimit =>
    if handle ∈ w.connected then
      some { w with
        server := (w.server.onMessage atRoom atLimit handle message).1
        history :=
          .replied handle (w.server.onMessage atRoom atLimit handle message).2 :: w.history }
    else none
  | .getPackets room => some { w with server := w.server.takePackets room }

end World

/-- The relay thread as a machine. -/
def relay : Machine World Call := ⟨World.init, World.next⟩

namespace World

variable {w w' : World} {handle : ConnectionHdl}

@[simp] theorem relay_init : relay.init = World.init := rfl

theorem next_onOpen : relay.next w (.onOpen handle) = some w' ↔
    w.Fresh handle ∧ w' = { w with
      server := w.server.onOpen handle
      opened := handle :: w.opened
      connected := handle :: w.connected } := by
  simp only [relay, next]
  split_ifs with h <;> simp [h, eq_comm]

theorem next_onClose : relay.next w (.onClose handle) = some w' ↔
    handle ∈ w.connected ∧ w' = { w with
      server := (w.server.onClose handle).1
      connected := w.connected.filter fun c => c ≠ handle
      history := ((w.server.onClose handle).2.map Event.destroyed).toList ++ w.history } := by
  simp only [relay, next]
  split_ifs with h <;> simp [h, eq_comm]

theorem next_onMessage {message : List UInt8} {atRoom atLimit : KeyManager} :
    relay.next w (.onMessage handle message atRoom atLimit) = some w' ↔
    handle ∈ w.connected ∧ w' = { w with
      server := (w.server.onMessage atRoom atLimit handle message).1
      history :=
        .replied handle (w.server.onMessage atRoom atLimit handle message).2 :: w.history } := by
  simp only [relay, next]
  split_ifs with h <;> simp [h, eq_comm]

theorem next_getPackets {room : Hash} : relay.next w (.getPackets room) = some w' ↔
    w' = { w with server := w.server.takePackets room } := by
  simp [relay, next, eq_comm]

end World

/-! ### A run for the examples -/

/-- The moon key "moon". -/
def moonKey : Hash := ⟨[109, 111, 111, 110], rfl⟩

/-- The player key "pleb". -/
def plebKey : Hash := ⟨[112, 108, 101, 98], rfl⟩

/-- A table with the keys "moon" and "pleb" and room for two. -/
def moonTable : KeyManager := ⟨[⟨moonKey, plebKey, 2, by decide⟩]⟩

/-- The connection of a moon client. -/
def moonHandle : ConnectionHdl := ⟨0, 0⟩

/-- The connection of a player client. -/
def plebHandle : ConnectionHdl := ⟨1, 8⟩

/-- The moon client sends "moonhey", then the player client "pleb". -/
def moonCalls : List Call :=
  [.onOpen moonHandle, .onOpen plebHandle,
    .onMessage moonHandle (moonKey.bytes ++ [104, 101, 121]) moonTable moonTable,
    .onMessage plebHandle plebKey.bytes moonTable moonTable]

/-- The world after `moonCalls`. -/
def moonWorld : World := (relay.run relay.init moonCalls).get (by decide)

theorem moonWorld_reachable : relay.Reachable moonWorld := .of_run (Option.some_get _).symm

end MoonJamRelay
