import MoonJamRelay.Relay.Run
import MoonJamRelay.Threads.State

/-!
# The steps of the threads

`relayExec`, `roomExec` and `workerExec` are the next sections of the threads, from the source.
A section under a mutex takes two steps, one that locks the mutex and one that runs the section; at
its end the thread keeps the mutexes of the scopes it is still in.

* `relaySystem` : the machine.  A label says which thread steps, or which call the websocket library
  makes next; handlers run one at a time.  A session can end at any time, and the key table can be
  replaced whenever the key mutex is free.

`MoonJamRelay.Threads.Inversion` says what each step can do.
-/

namespace MoonJamRelay

namespace System

/-! ### The relay thread -/

/-- The tables of the accumulator. -/
abbrev accumulator (s : System) : PacketAccumulator := s.server.packetAccumulator

/-- Replace the tables of the accumulator. -/
def withAccumulator (s : System) (a : PacketAccumulator) : System :=
  { s with server := { s.server with packetAccumulator := a } }

/-- The handler goes on at `pc`. -/
def goto (s : System) (pc : RelayPc) : System := { s with relayPc := pc }

/-- Add an entry to the log. -/
def record (s : System) (entry : LogEntry) : System := { s with log := s.log ++ [entry] }

/-- `close`, and the handler returns. -/
def refuse (s : System) (handle : ConnectionHdl) : System :=
  { s with sessions := s.sessions.filter fun c => c ≠ handle, relayPc := .idle }

/-- The packet `addPacket` stores, with its history. -/
def newPacket (s : System) (r : SizedRequest) : Packet :=
  ⟨r.packet, r.handle, r.message, s.accumulator.accepted⟩

/-- The next section of the relay thread. -/
def relayExec (s : System) : Option System :=
  match s.relayPc with
  | .idle => none
  | .claimIdentifier handle =>
    let server := s.server.claimIdentifier handle
    some { s with
      server := server
      opened := handle :: s.opened
      connected := handle :: s.connected
      relayPc := .idle
      log := s.log ++ [.opened handle (server.getIdentifier handle)] }
  | .closeIdentifier handle => some (s.goto (.eraseMoon handle (s.server.getIdentifier handle)))
  | .eraseMoon handle identifier =>
    let erased := s.server.eraseMoon identifier
    some { s with
      server := erased.1
      relayPc := match erased.2 with
        | none => .closePlayerCount handle identifier
        | some room => .erasePackets handle identifier room }
  | .erasePackets handle identifier room =>
    if room ∈ s.accumulator.packets then
      some (((s.withAccumulator (s.accumulator.erasePackets room)).record
        (.destroyed room (s.accumulator.pending room))).goto (.eraseHandles handle identifier room))
    else some (s.goto (.closePlayerCount handle identifier))
  | .eraseHandles handle identifier room =>
    some ((s.withAccumulator (s.accumulator.eraseHandles room)).goto
      (.closePlayerCount handle identifier))
  | .closePlayerCount handle identifier => some (s.goto (.removeConnection handle identifier))
  | .removeConnection handle identifier =>
    some ((s.withAccumulator (s.accumulator.removeConnection identifier)).goto
      (.releaseIdentifier handle identifier))
  | .releaseIdentifier handle _ =>
    some { s with
      server := s.server.releaseIdentifier handle
      connected := s.connected.filter fun c => c ≠ handle
      relayPc := .idle }
  | .getIdentifier handle message =>
    let identifier := s.server.getIdentifier handle
    if identifier = 0 then some (s.goto .idle)
    else if message.length < hashLength then some (s.refuse handle)
    else some (s.goto (.getRoom handle message identifier))
  | .getRoom handle message identifier =>
    let room := s.keys.getRoom (Hash.ofBytes message)
    let r : Request := ⟨handle, message, identifier, room⟩
    let s := s.record (.resolved handle message s.keys)
    if room = Hash.empty then some (s.refuse handle)
    else some (s.goto (if r.moonClient then .addMoon r else .hasRoom r))
  | .addMoon r =>
    some { s with server := s.server.addMoon r.identifier r.room, relayPc := .hasRoom r }
  | .hasRoom r =>
    if s.server.hasRoom r.room then some (s.goto r.checkSize)
    else if r.moonClient then some (s.goto (.insertPackets r))
    else some (s.refuse r.handle)
  | .insertPackets r =>
    if r.room ∈ s.accumulator.packets then some (s.goto r.checkSize)
    else some ((s.withAccumulator (s.accumulator.insertPackets r.room)).goto (.insertHandles r))
  | .insertHandles r =>
    some ((s.withAccumulator (s.accumulator.insertHandles r.room)).goto (.createRoom r))
  | .createRoom r => some (s.goto (.cleanUp r))
  | .cleanUp r => some (s.goto (.join r s.completedThreads))
  | .join r [] => some { s with completedThreads := [], relayPc := .startThread r }
  | .join r (room :: rest) =>
    -- joining what is not a thread is an error; a join waits for the thread to finish
    (s.roomThreads.lookup room).bind fun t =>
      if (s.threads t).pc = .finished then
        some { s with
          threads := Function.update s.threads t { s.threads t with pc := .joined }
          roomThreads := s.roomThreads.erase room
          relayPc := .join r rest }
      else none
  | .startThread r =>
    if r.room ∈ s.roomThreads then some (s.goto r.checkSize)
    else some { s with
      threads := Function.update s.threads s.spawned (.start r.room)
      roomThreads := s.roomThreads.insert r.room s.spawned
      spawned := s.spawned + 1
      relayPc := r.checkSize }
  | .getPlayerLimit r => some (s.goto (.playerCount r (s.keys.getPlayerLimit r.room)))
  | .playerCount r limit => some (s.goto (.countConnections r limit))
  | .countConnections r limit =>
    let count := s.accumulator.getConnectionCountWithoutConnection r.identifier r.room
    if ¬ r.moonClient ∧ count ≥ limit then some (s.refuse r.handle)
    else some (s.goto (.appendPacket r))
  | .appendPacket r =>
    if r.room ∈ s.accumulator.packets then
      some (((s.withAccumulator
        (s.accumulator.appendPacket r.room r.packet r.handle r.message)).record
        (.accepted r.room (s.newPacket r) (s.accumulator.registered r.room))).goto
        (.registerHandle r))
    else some (s.goto .idle)
  | .registerHandle r =>
    some ((s.withAccumulator
      (s.accumulator.registerHandle r.room r.identifier r.handle)).goto .idle)

/-! ### The room threads -/

/-- Replace the variables of a room thread. -/
def withThread (s : System) (t : ℕ) (thread : RoomThread) : System :=
  { s with threads := Function.update s.threads t thread }

/-- Replace a worker. -/
def withWorker (s : System) (k : Fin threadCount) (w : RelayThread) : System :=
  { s with workers := Function.update s.workers k w }

/-- Lock or unlock the controller of a job. -/
def withController (s : System) (job : Job) (locked : Bool) : System :=
  { s with controllers := Function.update s.controllers job locked }

/-- The room thread goes on at `pc`. -/
def threadGoto (s : System) (t : ℕ) (pc : RoomPc) : System :=
  s.withThread t { s.threads t with pc := pc }

/-- The job of the last tick for the connection at the index. -/
def job (s : System) (t i : ℕ) : Job := ⟨t, (s.threads t).tick, i⟩

/-- The next section of a room thread. -/
def roomExec (s : System) (t : ℕ) : Option System :=
  let thread := s.threads t
  match thread.pc with
  | .hasRoom =>
    some (s.threadGoto t (if s.accumulator.hasRoom thread.room then .getPackets else .complete))
  | .getPackets =>
    let taken := s.accumulator.getPackets thread.room
    if taken.1.isEmpty then
      some ((s.withAccumulator taken.2).withThread t { thread with packets := [], pc := .sleep })
    else
      some (((s.withAccumulator taken.2).withThread t
        { thread with packets := taken.1, tick := thread.tick + 1, pc := .getConnections }).record
        (.took t (thread.tick + 1) thread.room taken.1))
  | .getConnections =>
    let connections := s.accumulator.getConnections thread.room
    some ((s.withThread t
      { thread with
        connections := connections
        pc := if connections.isEmpty then .sleep else .lock 0 0 }).record
      (.listed t thread.tick connections))
  | .lock i k =>
    -- the search for a free worker starts again after the last one
    if (s.workers k).threadLock then some (s.threadGoto t (.lock i (k + 1)))
    else some ((s.withWorker k (s.workers k).lock).threadGoto t (.acquireController i k))
  | .acquireController i k =>
    if s.controllers (s.job t i) then none
    else some ((s.withController (s.job t i) true).threadGoto t (.assign i k))
  | .assign i k =>
    some ((s.withWorker k ((s.workers k).assign (s.job t i))).threadGoto t (.run i k))
  | .run i k =>
    some ((s.withWorker k (s.workers k).run).threadGoto t
      (if i + 1 < thread.connections.length then .lock (i + 1) 0 else .joinAcquire 0))
  | .joinAcquire i =>
    if s.controllers (s.job t i) then none
    else some ((s.withController (s.job t i) true).threadGoto t (.joinRelease i))
  | .joinRelease i =>
    some ((s.withController (s.job t i) false).threadGoto t
      (if i + 1 < thread.connections.length then .joinAcquire (i + 1) else .sleep))
  | .sleep => some (s.threadGoto t .hasRoom)
  | .complete =>
    some ({ s with completedThreads := s.completedThreads ++ [thread.room] }.threadGoto t
      .returning)
  | .returning => some (s.threadGoto t .finished)
  | .finished | .joined => none

/-! ### The workers -/

/-- The connection of a job, read from the variables of its thread. -/
def jobConnection (s : System) (j : Job) : Option ReceivedConnection :=
  (s.threads j.thread).connections[j.index]?

/-- The bytes of a job for a connection, from the packets of its thread. -/
def jobAssemble (s : System) (j : Job) (c : ReceivedConnection) : Option Assembled :=
  (assemble c.identifier (s.threads j.thread).packets).map fun bytes =>
    ⟨bytes, foreign c.identifier (s.threads j.thread).packets⟩

/-- `send` for a job: the bytes reach the connection if its websocket is open. -/
def jobSend (s : System) (j : Job) (c : ReceivedConnection) (a : Assembled) : System :=
  s.record (.sent j c (s.threads j.thread).room a.bytes a.parts (decide (c.handle ∈ s.sessions)))

/-- The next step of a worker. -/
def workerExec (s : System) (k : Fin threadCount) : Option System :=
  let w := s.workers k
  match w.pc with
  | .call none =>
    w.job.bind fun j => (s.jobConnection j).bind fun c => (s.jobAssemble j c).map fun a =>
      s.withWorker k (w.proceed (some a))
  | .call (some a) =>
    w.job.bind fun j => (s.jobConnection j).map fun c =>
      (s.jobSend j c a).withWorker k w.finish
  | .done => w.job.map fun j => (s.withController j false).withWorker k w.again
  | .releaseRunning | .acquireRunning | .releaseThread | .awaitRun =>
    (w.advance none).map fun w' => s.withWorker k w'

/-! ### The machine -/

/-- A step of a thread that wants a mutex: it locks it, or has locked it and runs the section. -/
def locked (s : System) (t : ThreadId) (wants : Option Mutex) (exec : Option System) :
    Option System :=
  match wants with
  | none => exec
  | some m =>
    match s.owner m with
    | none => some { s with owner := s.owner.acquire m t }
    | some t' => if t' = t then exec else none

/-- At the end of a section the thread keeps the mutexes of the scopes it is in. -/
def unlock (s : System) (t : ThreadId) (held : List Mutex) : System :=
  { s with owner := s.owner.keep t held }

/-- The connection may be opened: it is a new one, and its address is not the address of a
connection that is still open. -/
def Fresh (s : System) (handle : ConnectionHdl) : Prop :=
  handle ∉ s.opened ∧ ∀ c ∈ s.connected, c.pointer ≠ handle.pointer

instance (s : System) (handle : ConnectionHdl) : Decidable (s.Fresh handle) :=
  inferInstanceAs (Decidable (_ ∧ _))

end System

/-- What happens next. -/
inductive Label where
  /-- The websocket library calls `onOpen`. -/
  | onOpen (handle : ConnectionHdl)
  /-- The websocket library calls `onMessage`. -/
  | onMessage (handle : ConnectionHdl) (message : List UInt8)
  /-- The websocket library calls `onClose`. -/
  | onClose (handle : ConnectionHdl)
  /-- The websocket of the connection is not open any more. -/
  | endSession (handle : ConnectionHdl)
  /-- `refreshKeys` swaps the key table. -/
  | refreshKeys (table : KeyManager)
  /-- The relay thread steps. -/
  | relay
  /-- A room thread steps. -/
  | room (thread : ℕ)
  /-- A worker steps. -/
  | worker (k : Fin threadCount)
  deriving DecidableEq

/-- The state after a step. -/
def System.next (s : System) : Label → Option System
  | .onOpen handle =>
    if s.relayPc = .idle ∧ s.Fresh handle then
      some { s with sessions := handle :: s.sessions, relayPc := .claimIdentifier handle }
    else none
  | .onMessage handle message =>
    if s.relayPc = .idle ∧ handle ∈ s.connected then some (s.goto (.getIdentifier handle message))
    else none
  | .onClose handle =>
    if s.relayPc = .idle ∧ handle ∈ s.connected ∧ handle ∉ s.sessions then
      some (s.goto (.closeIdentifier handle))
    else none
  | .endSession handle => some { s with sessions := s.sessions.filter fun c => c ≠ handle }
  | .refreshKeys table => if s.owner .key = none then some { s with keys := table } else none
  | .relay =>
    s.locked .relay s.relayPc.wants (s.relayExec.map fun s' => s'.unlock .relay s'.relayPc.held)
  | .room t =>
    s.locked (.room t) (s.threads t).pc.wants ((s.roomExec t).map fun s' => s'.unlock (.room t) [])
  | .worker k => s.workerExec k

/-- All threads of the relay as a machine. -/
def relaySystem (keys : KeyManager) : Machine System Label := ⟨.init keys, System.next⟩

/-! ### A run for the examples -/

/-- The moon client opens its connection and sends its key, and its room is created. -/
def startLabels : List Label :=
  [.onOpen moonHandle, .relay, .relay, .onMessage moonHandle moonKey.bytes] ++
    List.replicate 28 .relay

end MoonJamRelay
