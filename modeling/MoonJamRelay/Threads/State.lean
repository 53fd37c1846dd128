import MoonJamRelay.Locks.Basic
import MoonJamRelay.Pool.Basic
import MoonJamRelay.Relay.Server

/-!
# The threads of the relay

The relay thread runs the handlers, every room has a thread that sends its packets in ticks, and a
pool of workers runs the jobs of the ticks.  Their state is cut at the locks: a program point is
what comes before the next critical section, which is then one step.

* `RelayPc`, `RoomPc` : the program points, with the local variables that are still read.  `wants`
  is the mutex of the next section, `held` the mutexes of the enclosing `lock_guard`s.
* `RoomThread` : the room thread's own variables; its jobs read them by reference.
* `Job` : one function handed to the pool, named by the thread, the tick and the index of its
  connection; its controller is a semaphore.
* `LogEntry` : what a run leaves in the log, oldest first.  No step reads it.
* `System` : all of the state.
-/

namespace MoonJamRelay

/-- `THREAD_COUNT`. -/
abbrev threadCount : ℕ := 1024

instance : @NeZero ℕ Zero.ofOfNat0 threadCount := ⟨Nat.succ_ne_zero _⟩

/-- The mutexes. -/
inductive Mutex where
  | identifier | playerCount | packet | handle | room | completed | key
  deriving DecidableEq

/-- The threads that step on their own. -/
inductive ThreadId where
  | relay
  | room (thread : ℕ)
  | worker (k : Fin threadCount)
  deriving DecidableEq

/-! ### The relay thread -/

/-- A message, with the identifier and the room `onMessage` found for it. -/
structure Request where
  handle : ConnectionHdl
  message : List UInt8
  identifier : UInt16
  room : Hash
  deriving DecidableEq

/-- A request whose message is not too long. -/
structure SizedRequest extends Request where
  length_le : message.length ≤ hashLength + maxPacketSize
  deriving DecidableEq

/-- The message presents a moon key. -/
def Request.moonClient (r : Request) : Bool := decide (r.room = Hash.ofBytes r.message)

/-- The packet of the message. -/
def SizedRequest.packet (r : SizedRequest) : ReceivedPacket :=
  receivedPacket r.identifier r.message r.length_le

/-- Where the relay thread is. -/
inductive RelayPc where
  /-- Between two handler calls. -/
  | idle
  /-- `onOpen`: in `claimIdentifier`. -/
  | claimIdentifier (handle : ConnectionHdl)
  /-- `onClose`: in `getIdentifier`. -/
  | closeIdentifier (handle : ConnectionHdl)
  /-- `onClose`: before the scope of the moon table. -/
  | eraseMoon (handle : ConnectionHdl) (identifier : UInt16)
  /-- `destroyRoom`: before `m_packets`. -/
  | erasePackets (handle : ConnectionHdl) (identifier : UInt16) (room : Hash)
  /-- `destroyRoom`: before `m_handles`. -/
  | eraseHandles (handle : ConnectionHdl) (identifier : UInt16) (room : Hash)
  /-- `onClose`: before the player count lock. -/
  | closePlayerCount (handle : ConnectionHdl) (identifier : UInt16)
  /-- `onClose`: in `removeConnection`. -/
  | removeConnection (handle : ConnectionHdl) (identifier : UInt16)
  /-- `onClose`: in `releaseIdentifier`. -/
  | releaseIdentifier (handle : ConnectionHdl) (identifier : UInt16)
  /-- `onMessage`: in `getIdentifier`. -/
  | getIdentifier (handle : ConnectionHdl) (message : List UInt8)
  /-- `onMessage`: in `getRoom`. -/
  | getRoom (handle : ConnectionHdl) (message : List UInt8) (identifier : UInt16)
  /-- `onMessage`: before the scope of the moon table. -/
  | addMoon (r : Request)
  /-- `onMessage`: in `hasRoom`. -/
  | hasRoom (r : Request)
  /-- `PacketAccumulator::createRoom`: before `m_packets`. -/
  | insertPackets (r : Request)
  /-- `PacketAccumulator::createRoom`: before `m_handles`. -/
  | insertHandles (r : Request)
  /-- `RoomManager::createRoom`: before the room lock. -/
  | createRoom (r : Request)
  /-- `RoomManager::createRoom`: before the completed threads. -/
  | cleanUp (r : Request)
  /-- `RoomManager::createRoom`: the loop over the completed threads, `rest` to go. -/
  | join (r : Request) (rest : List Hash)
  /-- `RoomManager::createRoom`: after the completed threads. -/
  | startThread (r : Request)
  /-- `onMessage`: in `getPlayerLimit`. -/
  | getPlayerLimit (r : SizedRequest)
  /-- `onMessage`: before the player count lock. -/
  | playerCount (r : SizedRequest) (limit : ℕ)
  /-- `onMessage`: in `getConnectionCountWithoutConnection`. -/
  | countConnections (r : SizedRequest) (limit : ℕ)
  /-- `addPacket`: before `m_packets`. -/
  | appendPacket (r : SizedRequest)
  /-- `addPacket`: before `m_handles`. -/
  | registerHandle (r : SizedRequest)
  deriving DecidableEq

/-- Where `onMessage` goes on when the room exists: a message that is too long is dropped. -/
def Request.checkSize (r : Request) : RelayPc :=
  if h : r.message.length > hashLength + maxPacketSize then .idle
  else .getPlayerLimit ⟨r, Nat.le_of_not_gt h⟩

namespace RelayPc

/-- The mutex of the next section. -/
def wants : RelayPc → Option Mutex
  | idle | join .. | startThread _ => none
  | claimIdentifier _ | closeIdentifier _ | eraseMoon .. | releaseIdentifier .. | getIdentifier ..
  | addMoon _ => some .identifier
  | getRoom .. | getPlayerLimit _ => some .key
  | erasePackets .. | hasRoom _ | insertPackets _ | appendPacket _ => some .packet
  | eraseHandles .. | removeConnection .. | insertHandles _ | countConnections ..
  | registerHandle _ => some .handle
  | closePlayerCount .. | playerCount .. => some .playerCount
  | createRoom _ => some .room
  | cleanUp _ => some .completed

/-- The mutexes of the enclosing scopes. -/
def held : RelayPc → List Mutex
  | erasePackets .. | eraseHandles .. => [.identifier]
  | removeConnection .. | countConnections .. | appendPacket _ | registerHandle _ => [.playerCount]
  | cleanUp _ | startThread _ => [.room]
  | join .. => [.room, .completed]
  | _ => []

/-- The message that is being processed, once its room is known. -/
def request : RelayPc → Option Request
  | addMoon r | hasRoom r | insertPackets r | insertHandles r | createRoom r | cleanUp r | join r _
  | startThread r => some r
  | getPlayerLimit r | playerCount r _ | countConnections r _ | appendPacket r
  | registerHandle r => some r.toRequest
  | _ => none

/-- The connection that is being closed, with its identifier. -/
def closing : RelayPc → Option (ConnectionHdl × UInt16)
  | eraseMoon h i | erasePackets h i _ | eraseHandles h i _ | closePlayerCount h i
  | removeConnection h i | releaseIdentifier h i => some (h, i)
  | _ => none

/-- A call of `PacketAccumulator::createRoom` is in progress. -/
def Creating : RelayPc → Prop
  | insertPackets _ | insertHandles _ | createRoom _ | cleanUp _ | join .. | startThread _ => True
  | _ => False

/-- The rooms in `m_completedThreads` whose threads the clean-up has not joined yet. -/
def uncleaned (completed : List Hash) : RelayPc → List Hash
  | join _ rest => rest
  | _ => completed

end RelayPc

/-! ### The room threads and their jobs -/

/-- Where a room thread is; `i` counts the connections of the tick and `k` the workers. -/
inductive RoomPc where
  /-- The condition of the loop. -/
  | hasRoom
  | getPackets
  | getConnections
  /-- `RelayThreadPool::run` for connection `i`: try to lock worker `k`. -/
  | lock (i : ℕ) (k : Fin threadCount)
  /-- Acquire the controller of the job. -/
  | acquireController (i : ℕ) (k : Fin threadCount)
  /-- `RelayThread::run`: store the function and the callback. -/
  | assign (i : ℕ) (k : Fin threadCount)
  /-- `RelayThread::run`: release `m_runningLock`. -/
  | run (i : ℕ) (k : Fin threadCount)
  /-- `RelayThreadController::join` of job `i`: acquire. -/
  | joinAcquire (i : ℕ)
  /-- `RelayThreadController::join` of job `i`: release. -/
  | joinRelease (i : ℕ)
  | sleep
  /-- After the loop: before the completed threads. -/
  | complete
  /-- The completion has been pushed. -/
  | returning
  /-- The function of the thread has returned. -/
  | finished
  /-- There is no such thread: not started, or joined. -/
  | joined
  deriving DecidableEq

namespace RoomPc

/-- The mutex of the next section. -/
def wants : RoomPc → Option Mutex
  | hasRoom | getPackets => some .packet
  | getConnections => some .handle
  | complete => some .completed
  | _ => none

/-- The thread is in its loop: it has not seen that its room is gone. -/
def InLoop : RoomPc → Prop
  | complete | returning | finished | joined => False
  | _ => True

/-- The thread has taken packets, and has not joined all jobs for them. -/
def InTick : RoomPc → Prop
  | getConnections | lock .. | acquireController .. | assign .. | run .. | joinAcquire _
  | joinRelease _ => True
  | _ => False

/-- The worker the thread has locked and not started yet. -/
def claims : RoomPc → Option (Fin threadCount)
  | acquireController _ k | assign _ k | run _ k => some k
  | _ => none

/-- The number of jobs of the last tick that were started, out of `n`. -/
def started (n : ℕ) : RoomPc → ℕ
  | getConnections => 0
  | lock i _ | acquireController i _ | assign i _ | run i _ => i
  | _ => n

/-- The number of jobs of the last tick that were joined, out of `n`. -/
def ended (n : ℕ) : RoomPc → ℕ
  | getConnections | lock .. | acquireController .. | assign .. | run .. => 0
  | joinAcquire i => i
  | joinRelease i => i + 1
  | _ => n

end RoomPc

/-- A room thread. -/
structure RoomThread where
  room : Hash
  pc : RoomPc
  /-- The packets of the tick. -/
  packets : List Packet
  /-- The connections of the tick. -/
  connections : List ReceivedConnection
  /-- The number of ticks that took packets; no code counts them. -/
  tick : ℕ

/-- No thread. -/
def RoomThread.none : RoomThread := ⟨Hash.empty, .joined, [], [], 0⟩

/-- A thread that was just started. -/
def RoomThread.start (room : Hash) : RoomThread := ⟨room, .hasRoom, [], [], 0⟩

/-- A function handed to the pool: it sends the packets of a tick to one connection. -/
structure Job where
  thread : ℕ
  tick : ℕ
  /-- The index of the connection. -/
  index : ℕ
  deriving DecidableEq

/-- The bytes a job is about to send, with the packets they come from, which no code keeps. -/
structure Assembled where
  bytes : List UInt8
  parts : List Packet

/-- The workers run jobs; a job has assembled its bytes or not. -/
abbrev RelayThread := Worker Job (Option Assembled)

/-! ### The state -/

/-- What a run leaves in the log. -/
inductive LogEntry where
  /-- `onOpen` gave the connection this identifier (`0` for none). -/
  | opened (handle : ConnectionHdl) (identifier : UInt16)
  /-- `getRoom` was called for a message and found this table. -/
  | resolved (handle : ConnectionHdl) (message : List UInt8) (keys : KeyManager)
  /-- `addPacket` stored the packet; `registered` was in `m_handles` then. -/
  | accepted (room : Hash) (packet : Packet) (registered : List ReceivedConnection)
  /-- `destroyRoom` dropped the packets. -/
  | destroyed (room : Hash) (lost : List Packet)
  /-- A tick took the packets. -/
  | took (thread tick : ℕ) (room : Hash) (batch : List Packet)
  /-- The tick copied the connections. -/
  | listed (thread tick : ℕ) (connections : List ReceivedConnection)
  /-- The job called `send` for the connection with these bytes, which came from these packets. -/
  | sent (job : Job) (connection : ReceivedConnection) (room : Hash) (bytes : List UInt8)
      (parts : List Packet) (delivered : Bool)

/-- The state of all threads. -/
structure System where
  /-- The tables of `RelayServer` and `PacketAccumulator`. -/
  server : RelayServer
  /-- The key table. -/
  keys : KeyManager
  /-- The connections for which `onOpen` has run. -/
  opened : List ConnectionHdl
  /-- Those of them for which `onClose` has not run. -/
  connected : List ConnectionHdl
  /-- The connections whose websocket is open. -/
  sessions : List ConnectionHdl
  relayPc : RelayPc
  /-- `m_roomThreads`: the thread objects by room. -/
  roomThreads : UnorderedMap Hash ℕ
  /-- `m_completedThreads`. -/
  completedThreads : List Hash
  /-- The number of room threads started so far. -/
  spawned : ℕ
  threads : ℕ → RoomThread
  /-- `m_threads` of the pool. -/
  workers : Fin threadCount → RelayThread
  /-- The controllers of the jobs: locked or not. -/
  controllers : Job → Bool
  owner : Locks Mutex ThreadId
  log : List LogEntry

/-- The state when the program starts. -/
def System.init (keys : KeyManager) : System where
  server := .init
  keys := keys
  opened := []
  connected := []
  sessions := []
  relayPc := .idle
  roomThreads := ∅
  completedThreads := []
  spawned := 0
  threads := fun _ => .none
  workers := fun _ => .init
  controllers := fun _ => false
  owner := .free
  log := []

end MoonJamRelay
