import MoonJamRelay.Threads.Step

/-!
# What the steps can do

Each section of a thread is inverted once: the relations below list the ways it can end, with the
conditions of the branches and the state after it.  Results about runs are proved from them.

* `System.Goto` : a section of the relay thread that changes nothing but its program point.
* `System.RelayStep`, `System.RoomStep`, `System.WorkerStep` : the sections of the three kinds of
  threads.
* `System.CallStep` : the calls of the websocket library and the other changes from outside.
* `System.Step` : all of them, and the locking of a mutex; `next_step` is the inversion.
-/

namespace MoonJamRelay

namespace System

variable {s s' : System}

/-- The relay thread goes on without changing anything else. -/
inductive Goto (s : System) : RelayPc → Prop
  | closeIdentifier (handle : ConnectionHdl) : s.relayPc = .closeIdentifier handle →
      Goto s (.eraseMoon handle (s.server.getIdentifier handle))
  | destroyNothing (handle : ConnectionHdl) (identifier : UInt16) (room : Hash) :
      s.relayPc = .erasePackets handle identifier room → room ∉ s.accumulator.packets →
      Goto s (.closePlayerCount handle identifier)
  | closePlayerCount (handle : ConnectionHdl) (identifier : UInt16) :
      s.relayPc = .closePlayerCount handle identifier →
      Goto s (.removeConnection handle identifier)
  | noIdentifier (handle : ConnectionHdl) (message : List UInt8) :
      s.relayPc = .getIdentifier handle message → s.server.getIdentifier handle = 0 →
      Goto s .idle
  | getIdentifier (handle : ConnectionHdl) (message : List UInt8) :
      s.relayPc = .getIdentifier handle message → s.server.getIdentifier handle ≠ 0 →
      hashLength ≤ message.length →
      Goto s (.getRoom handle message (s.server.getIdentifier handle))
  | hasRoom (r : Request) : s.relayPc = .hasRoom r → r.room ∈ s.accumulator.packets →
      Goto s r.checkSize
  | newRoom (r : Request) : s.relayPc = .hasRoom r → r.room ∉ s.accumulator.packets →
      r.moonClient = true → Goto s (.insertPackets r)
  | oldRoom (r : Request) : s.relayPc = .insertPackets r → r.room ∈ s.accumulator.packets →
      Goto s r.checkSize
  | createRoom (r : Request) : s.relayPc = .createRoom r → Goto s (.cleanUp r)
  | cleanUp (r : Request) : s.relayPc = .cleanUp r → Goto s (.join r s.completedThreads)
  | oldThread (r : Request) : s.relayPc = .startThread r → r.room ∈ s.roomThreads →
      Goto s r.checkSize
  | getPlayerLimit (r : SizedRequest) : s.relayPc = .getPlayerLimit r →
      Goto s (.playerCount r (s.keys.getPlayerLimit r.room))
  | playerCount (r : SizedRequest) (limit : ℕ) : s.relayPc = .playerCount r limit →
      Goto s (.countConnections r limit)
  | countConnections (r : SizedRequest) (limit : ℕ) : s.relayPc = .countConnections r limit →
      (r.moonClient = true ∨
        s.accumulator.getConnectionCountWithoutConnection r.identifier r.room < limit) →
      Goto s (.appendPacket r)
  | noPacket (r : SizedRequest) : s.relayPc = .appendPacket r → r.room ∉ s.accumulator.packets →
      Goto s .idle

/-- The sections of the relay thread. -/
inductive RelayStep (s : System) : System → Prop
  | goto (pc : RelayPc) : s.Goto pc → RelayStep s (s.goto pc)
  | claimIdentifier (handle : ConnectionHdl) : s.relayPc = .claimIdentifier handle →
      RelayStep s { s with
        server := s.server.claimIdentifier handle
        opened := handle :: s.opened
        connected := handle :: s.connected
        relayPc := .idle
        log := s.log ++ [.opened handle ((s.server.claimIdentifier handle).getIdentifier handle)] }
  | eraseMoon (handle : ConnectionHdl) (identifier : UInt16) :
      s.relayPc = .eraseMoon handle identifier → (s.server.eraseMoon identifier).2 = none →
      RelayStep s { s with
        server := (s.server.eraseMoon identifier).1
        relayPc := .closePlayerCount handle identifier }
  | eraseLastMoon (handle : ConnectionHdl) (identifier : UInt16) (room : Hash) :
      s.relayPc = .eraseMoon handle identifier → (s.server.eraseMoon identifier).2 = some room →
      RelayStep s { s with
        server := (s.server.eraseMoon identifier).1
        relayPc := .erasePackets handle identifier room }
  | erasePackets (handle : ConnectionHdl) (identifier : UInt16) (room : Hash) :
      s.relayPc = .erasePackets handle identifier room → room ∈ s.accumulator.packets →
      RelayStep s (((s.withAccumulator (s.accumulator.erasePackets room)).record
        (.destroyed room (s.accumulator.pending room))).goto (.eraseHandles handle identifier room))
  | eraseHandles (handle : ConnectionHdl) (identifier : UInt16) (room : Hash) :
      s.relayPc = .eraseHandles handle identifier room →
      RelayStep s ((s.withAccumulator (s.accumulator.eraseHandles room)).goto
        (.closePlayerCount handle identifier))
  | removeConnection (handle : ConnectionHdl) (identifier : UInt16) :
      s.relayPc = .removeConnection handle identifier →
      RelayStep s ((s.withAccumulator (s.accumulator.removeConnection identifier)).goto
        (.releaseIdentifier handle identifier))
  | releaseIdentifier (handle : ConnectionHdl) (identifier : UInt16) :
      s.relayPc = .releaseIdentifier handle identifier →
      RelayStep s { s with
        server := s.server.releaseIdentifier handle
        connected := s.connected.filter fun c => c ≠ handle
        relayPc := .idle }
  | tooShort (handle : ConnectionHdl) (message : List UInt8) :
      s.relayPc = .getIdentifier handle message → s.server.getIdentifier handle ≠ 0 →
      message.length < hashLength → RelayStep s (s.refuse handle)
  | unknownKey (handle : ConnectionHdl) (message : List UInt8) (identifier : UInt16) :
      s.relayPc = .getRoom handle message identifier →
      s.keys.getRoom (Hash.ofBytes message) = Hash.empty →
      RelayStep s ((s.record (.resolved handle message s.keys)).refuse handle)
  | getRoom (handle : ConnectionHdl) (message : List UInt8) (identifier : UInt16) (r : Request)
      (pc : RelayPc) : s.relayPc = .getRoom handle message identifier →
      r = ⟨handle, message, identifier, s.keys.getRoom (Hash.ofBytes message)⟩ →
      r.room ≠ Hash.empty → (pc = .addMoon r ∧ r.moonClient = true ∨
        pc = .hasRoom r ∧ r.moonClient = false) →
      RelayStep s ((s.record (.resolved handle message s.keys)).goto pc)
  | addMoon (r : Request) : s.relayPc = .addMoon r →
      RelayStep s { s with server := s.server.addMoon r.identifier r.room, relayPc := .hasRoom r }
  | noRoom (r : Request) : s.relayPc = .hasRoom r → r.room ∉ s.accumulator.packets →
      r.moonClient = false → RelayStep s (s.refuse r.handle)
  | insertPackets (r : Request) : s.relayPc = .insertPackets r → r.room ∉ s.accumulator.packets →
      RelayStep s ((s.withAccumulator (s.accumulator.insertPackets r.room)).goto (.insertHandles r))
  | insertHandles (r : Request) : s.relayPc = .insertHandles r →
      RelayStep s ((s.withAccumulator (s.accumulator.insertHandles r.room)).goto (.createRoom r))
  | endJoin (r : Request) : s.relayPc = .join r [] →
      RelayStep s { s with completedThreads := [], relayPc := .startThread r }
  | join (r : Request) (room : Hash) (rest : List Hash) (t : ℕ) :
      s.relayPc = .join r (room :: rest) → s.roomThreads.lookup room = some t →
      (s.threads t).pc = .finished →
      RelayStep s { s with
        threads := Function.update s.threads t { s.threads t with pc := .joined }
        roomThreads := s.roomThreads.erase room
        relayPc := .join r rest }
  | startThread (r : Request) : s.relayPc = .startThread r → r.room ∉ s.roomThreads →
      RelayStep s { s with
        threads := Function.update s.threads s.spawned (.start r.room)
        roomThreads := s.roomThreads.insert r.room s.spawned
        spawned := s.spawned + 1
        relayPc := r.checkSize }
  | full (r : SizedRequest) (limit : ℕ) : s.relayPc = .countConnections r limit →
      r.moonClient = false →
      limit ≤ s.accumulator.getConnectionCountWithoutConnection r.identifier r.room →
      RelayStep s (s.refuse r.handle)
  | appendPacket (r : SizedRequest) : s.relayPc = .appendPacket r →
      r.room ∈ s.accumulator.packets →
      RelayStep s (((s.withAccumulator
        (s.accumulator.appendPacket r.room r.packet r.handle r.message)).record
        (.accepted r.room (s.newPacket r) (s.accumulator.registered r.room))).goto
        (.registerHandle r))
  | registerHandle (r : SizedRequest) : s.relayPc = .registerHandle r →
      RelayStep s ((s.withAccumulator
        (s.accumulator.registerHandle r.room r.identifier r.handle)).goto .idle)

/-- The sections of a room thread. -/
inductive RoomStep (s : System) (t : ℕ) : System → Prop
  | stay : (s.threads t).pc = .hasRoom → (s.threads t).room ∈ s.accumulator.packets →
      RoomStep s t (s.threadGoto t .getPackets)
  | leave : (s.threads t).pc = .hasRoom → (s.threads t).room ∉ s.accumulator.packets →
      RoomStep s t (s.threadGoto t .complete)
  | noPackets : (s.threads t).pc = .getPackets →
      (s.accumulator.getPackets (s.threads t).room).1 = [] →
      RoomStep s t ((s.withAccumulator (s.accumulator.getPackets (s.threads t).room).2).withThread t
        { s.threads t with packets := [], pc := .sleep })
  | getPackets (batch : List Packet) : (s.threads t).pc = .getPackets →
      (s.accumulator.getPackets (s.threads t).room).1 = batch → batch ≠ [] →
      RoomStep s t (((s.withAccumulator
        (s.accumulator.getPackets (s.threads t).room).2).withThread t
        { s.threads t with
          packets := batch, tick := (s.threads t).tick + 1, pc := .getConnections }).record
        (.took t ((s.threads t).tick + 1) (s.threads t).room batch))
  | getConnections (connections : List ReceivedConnection) : (s.threads t).pc = .getConnections →
      s.accumulator.getConnections (s.threads t).room = connections →
      RoomStep s t ((s.withThread t
        { s.threads t with
          connections := connections
          pc := if connections.isEmpty then .sleep else .lock 0 0 }).record
        (.listed t (s.threads t).tick connections))
  | lockNext (i : ℕ) (k : Fin threadCount) : (s.threads t).pc = .lock i k →
      RoomStep s t (s.threadGoto t (.lock i (k + 1)))
  | lock (i : ℕ) (k : Fin threadCount) : (s.threads t).pc = .lock i k →
      (s.workers k).threadLock = false →
      RoomStep s t ((s.withWorker k (s.workers k).lock).threadGoto t (.acquireController i k))
  | acquireController (i : ℕ) (k : Fin threadCount) :
      (s.threads t).pc = .acquireController i k → s.controllers (s.job t i) = false →
      RoomStep s t ((s.withController (s.job t i) true).threadGoto t (.assign i k))
  | assign (i : ℕ) (k : Fin threadCount) : (s.threads t).pc = .assign i k →
      RoomStep s t ((s.withWorker k ((s.workers k).assign (s.job t i))).threadGoto t (.run i k))
  | run (i : ℕ) (k : Fin threadCount) : (s.threads t).pc = .run i k →
      RoomStep s t ((s.withWorker k (s.workers k).run).threadGoto t
        (if i + 1 < (s.threads t).connections.length then .lock (i + 1) 0 else .joinAcquire 0))
  | joinAcquire (i : ℕ) : (s.threads t).pc = .joinAcquire i →
      s.controllers (s.job t i) = false →
      RoomStep s t ((s.withController (s.job t i) true).threadGoto t (.joinRelease i))
  | joinRelease (i : ℕ) : (s.threads t).pc = .joinRelease i →
      RoomStep s t ((s.withController (s.job t i) false).threadGoto t
        (if i + 1 < (s.threads t).connections.length then .joinAcquire (i + 1) else .sleep))
  | sleep : (s.threads t).pc = .sleep → RoomStep s t (s.threadGoto t .hasRoom)
  | complete : (s.threads t).pc = .complete →
      RoomStep s t ({ s with
        completedThreads := s.completedThreads ++ [(s.threads t).room] }.threadGoto t .returning)
  | returning : (s.threads t).pc = .returning → RoomStep s t (s.threadGoto t .finished)

/-- The steps of a worker. -/
inductive WorkerStep (s : System) (k : Fin threadCount) : System → Prop
  | advance (w : RelayThread) : (s.workers k).advance none = some w →
      WorkerStep s k (s.withWorker k w)
  | assemble (j : Job) (c : ReceivedConnection) (bytes : List UInt8) :
      (s.workers k).pc = .call none → (s.workers k).job = some j → s.jobConnection j = some c →
      assemble c.identifier (s.threads j.thread).packets = some bytes →
      WorkerStep s k (s.withWorker k ((s.workers k).proceed
        (some ⟨bytes, foreign c.identifier (s.threads j.thread).packets⟩)))
  | send (j : Job) (c : ReceivedConnection) (a : Assembled) :
      (s.workers k).pc = .call (some a) → (s.workers k).job = some j →
      s.jobConnection j = some c →
      WorkerStep s k ((s.jobSend j c a).withWorker k (s.workers k).finish)
  | done (j : Job) : (s.workers k).pc = .done → (s.workers k).job = some j →
      WorkerStep s k ((s.withController j false).withWorker k (s.workers k).again)

/-- The changes from outside. -/
inductive CallStep (s : System) : System → Prop
  | onOpen (handle : ConnectionHdl) : s.relayPc = .idle → s.Fresh handle →
      CallStep s { s with sessions := handle :: s.sessions, relayPc := .claimIdentifier handle }
  | onMessage (handle : ConnectionHdl) (message : List UInt8) : s.relayPc = .idle →
      handle ∈ s.connected → CallStep s (s.goto (.getIdentifier handle message))
  | onClose (handle : ConnectionHdl) : s.relayPc = .idle → handle ∈ s.connected →
      handle ∉ s.sessions → CallStep s (s.goto (.closeIdentifier handle))
  | endSession (handle : ConnectionHdl) :
      CallStep s { s with sessions := s.sessions.filter fun c => c ≠ handle }
  | refreshKeys (table : KeyManager) : s.owner .key = none →
      CallStep s { s with keys := table }

/-- The mutex of the next section of a thread. -/
def wants (s : System) : ThreadId → Option Mutex
  | .relay => s.relayPc.wants
  | .room t => (s.threads t).pc.wants
  | .worker _ => none

/-- The mutexes of the scopes a thread is in. -/
def held (s : System) : ThreadId → List Mutex
  | .relay => s.relayPc.held
  | .room _ | .worker _ => []

/-- A step of the machine. -/
inductive Step (s : System) : Label → System → Prop
  | call {s' : System} (l : Label) : s.CallStep s' → Step s l s'
  | acquire (l : Label) (t : ThreadId) (m : Mutex) : s.owner m = none → s.wants t = some m →
      Step s l { s with owner := s.owner.acquire m t }
  | relay {s' : System} : s.RelayStep s' →
      (∀ m, s.relayPc.wants = some m → s.owner m = some .relay) →
      Step s .relay (s'.unlock .relay s'.relayPc.held)
  | room {s' : System} (t : ℕ) : s.RoomStep t s' →
      (∀ m, (s.threads t).pc.wants = some m → s.owner m = some (.room t)) →
      Step s (.room t) (s'.unlock (.room t) [])
  | worker {s' : System} (k : Fin threadCount) : s.WorkerStep k s' → Step s (.worker k) s'

/-! ### The inversions -/

/-! The sections of the relay thread that branch. -/

theorem relayStep_of_eraseMoon {handle : ConnectionHdl} {identifier : UInt16}
    (hpc : s.relayPc = .eraseMoon handle identifier) (h : s.relayExec = some s') :
    s.RelayStep s' := by
  simp only [relayExec, hpc, Option.some.injEq] at h
  cases herase : (s.server.eraseMoon identifier).2 with
  | none =>
    rw [herase] at h
    exact h ▸ .eraseMoon handle identifier hpc herase
  | some room =>
    rw [herase] at h
    exact h ▸ .eraseLastMoon handle identifier room hpc herase

theorem relayStep_of_getIdentifier {handle : ConnectionHdl} {message : List UInt8}
    (hpc : s.relayPc = .getIdentifier handle message) (h : s.relayExec = some s') :
    s.RelayStep s' := by
  simp only [relayExec, hpc] at h
  split_ifs at h with h0 hl <;> rw [Option.some.injEq] at h
  · exact h ▸ .goto _ (.noIdentifier handle message hpc h0)
  · exact h ▸ .tooShort handle message hpc h0 hl
  · exact h ▸ .goto _ (.getIdentifier handle message hpc h0 (Nat.le_of_not_lt hl))

theorem relayStep_of_getRoom {handle : ConnectionHdl} {message : List UInt8} {identifier : UInt16}
    (hpc : s.relayPc = .getRoom handle message identifier) (h : s.relayExec = some s') :
    s.RelayStep s' := by
  simp only [relayExec, hpc] at h
  split_ifs at h with hempty hmoon <;> rw [Option.some.injEq] at h
  · exact h ▸ .unknownKey handle message identifier hpc hempty
  · exact h ▸ .getRoom handle message identifier _ _ hpc rfl hempty (.inl ⟨rfl, hmoon⟩)
  · exact h ▸ .getRoom handle message identifier _ _ hpc rfl hempty
      (.inr ⟨rfl, by simpa using hmoon⟩)

theorem relayStep_of_hasRoom {r : Request} (hpc : s.relayPc = .hasRoom r)
    (h : s.relayExec = some s') : s.RelayStep s' := by
  simp only [relayExec, hpc, RelayServer.hasRoom, PacketAccumulator.hasRoom_iff] at h
  split_ifs at h with hr hmoon <;> rw [Option.some.injEq] at h
  · exact h ▸ .goto _ (.hasRoom r hpc hr)
  · exact h ▸ .goto _ (.newRoom r hpc hr hmoon)
  · exact h ▸ .noRoom r hpc hr (by simpa using hmoon)

theorem relayStep_of_join {r : Request} {rest : List Hash} (hpc : s.relayPc = .join r rest)
    (h : s.relayExec = some s') : s.RelayStep s' := by
  cases rest with
  | nil =>
    simp only [relayExec, hpc, Option.some.injEq] at h
    exact h ▸ .endJoin r hpc
  | cons room rest =>
    simp only [relayExec, hpc, Option.bind_eq_some_iff] at h
    obtain ⟨t, ht, h⟩ := h
    split_ifs at h with hfin
    exact Option.some.inj h ▸ .join r room rest t hpc ht hfin

theorem relayStep_of_countConnections {r : SizedRequest} {limit : ℕ}
    (hpc : s.relayPc = .countConnections r limit) (h : s.relayExec = some s') :
    s.RelayStep s' := by
  simp only [relayExec, hpc] at h
  split_ifs at h with hfull <;> rw [Option.some.injEq] at h
  · exact h ▸ .full r limit hpc (by simpa using hfull.1) hfull.2
  · refine h ▸ .goto _ (.countConnections r limit hpc ?_)
    by_cases hm : r.moonClient = true
    · exact .inl hm
    · exact .inr (Nat.lt_of_not_le fun hle => hfull ⟨hm, hle⟩)

theorem relayStep_of_exec (h : s.relayExec = some s') : s.RelayStep s' := by
  cases hpc : s.relayPc with
  | idle => simp [relayExec, hpc] at h
  | claimIdentifier handle =>
    simp only [relayExec, hpc, Option.some.injEq] at h
    exact h ▸ .claimIdentifier handle hpc
  | closeIdentifier handle =>
    simp only [relayExec, hpc, Option.some.injEq] at h
    exact h ▸ .goto _ (.closeIdentifier handle hpc)
  | eraseMoon => exact relayStep_of_eraseMoon hpc h
  | erasePackets handle identifier room =>
    simp only [relayExec, hpc] at h
    split_ifs at h with hr <;> rw [Option.some.injEq] at h
    · exact h ▸ .erasePackets handle identifier room hpc hr
    · exact h ▸ .goto _ (.destroyNothing handle identifier room hpc hr)
  | eraseHandles handle identifier room =>
    simp only [relayExec, hpc, Option.some.injEq] at h
    exact h ▸ .eraseHandles handle identifier room hpc
  | closePlayerCount handle identifier =>
    simp only [relayExec, hpc, Option.some.injEq] at h
    exact h ▸ .goto _ (.closePlayerCount handle identifier hpc)
  | removeConnection handle identifier =>
    simp only [relayExec, hpc, Option.some.injEq] at h
    exact h ▸ .removeConnection handle identifier hpc
  | releaseIdentifier handle identifier =>
    simp only [relayExec, hpc, Option.some.injEq] at h
    exact h ▸ .releaseIdentifier handle identifier hpc
  | getIdentifier => exact relayStep_of_getIdentifier hpc h
  | getRoom => exact relayStep_of_getRoom hpc h
  | addMoon r =>
    simp only [relayExec, hpc, Option.some.injEq] at h
    exact h ▸ .addMoon r hpc
  | hasRoom => exact relayStep_of_hasRoom hpc h
  | insertPackets r =>
    simp only [relayExec, hpc] at h
    split_ifs at h with hr <;> rw [Option.some.injEq] at h
    · exact h ▸ .goto _ (.oldRoom r hpc hr)
    · exact h ▸ .insertPackets r hpc hr
  | insertHandles r =>
    simp only [relayExec, hpc, Option.some.injEq] at h
    exact h ▸ .insertHandles r hpc
  | createRoom r =>
    simp only [relayExec, hpc, Option.some.injEq] at h
    exact h ▸ .goto _ (.createRoom r hpc)
  | cleanUp r =>
    simp only [relayExec, hpc, Option.some.injEq] at h
    exact h ▸ .goto _ (.cleanUp r hpc)
  | join => exact relayStep_of_join hpc h
  | startThread r =>
    simp only [relayExec, hpc] at h
    split_ifs at h with hr <;> rw [Option.some.injEq] at h
    · exact h ▸ .goto _ (.oldThread r hpc hr)
    · exact h ▸ .startThread r hpc hr
  | getPlayerLimit r =>
    simp only [relayExec, hpc, Option.some.injEq] at h
    exact h ▸ .goto _ (.getPlayerLimit r hpc)
  | playerCount r limit =>
    simp only [relayExec, hpc, Option.some.injEq] at h
    exact h ▸ .goto _ (.playerCount r limit hpc)
  | countConnections => exact relayStep_of_countConnections hpc h
  | appendPacket r =>
    simp only [relayExec, hpc] at h
    split_ifs at h with hr <;> rw [Option.some.injEq] at h
    · exact h ▸ .appendPacket r hpc hr
    · exact h ▸ .goto _ (.noPacket r hpc hr)
  | registerHandle r =>
    simp only [relayExec, hpc, Option.some.injEq] at h
    exact h ▸ .registerHandle r hpc

/-! The other threads. -/

theorem roomStep_of_exec {t : ℕ} (h : s.roomExec t = some s') : s.RoomStep t s' := by
  cases hpc : (s.threads t).pc with
  | hasRoom =>
    simp only [roomExec, hpc, PacketAccumulator.hasRoom_iff, Option.some.injEq] at h
    split_ifs at h with hr
    · exact h ▸ .stay hpc hr
    · exact h ▸ .leave hpc hr
  | getPackets =>
    simp only [roomExec, hpc, List.isEmpty_iff] at h
    split_ifs at h with hempty <;> rw [Option.some.injEq] at h
    · exact h ▸ .noPackets hpc hempty
    · exact h ▸ .getPackets _ hpc rfl hempty
  | getConnections =>
    simp only [roomExec, hpc, Option.some.injEq] at h
    exact h ▸ .getConnections _ hpc rfl
  | lock i k =>
    simp only [roomExec, hpc] at h
    split_ifs at h with hlock <;> rw [Option.some.injEq] at h
    · exact h ▸ .lockNext i k hpc
    · exact h ▸ .lock i k hpc (by simpa using hlock)
  | acquireController i k =>
    simp only [roomExec, hpc] at h
    split_ifs at h with hlock
    rw [Option.some.injEq] at h
    exact h ▸ .acquireController i k hpc (by simpa using hlock)
  | assign i k =>
    simp only [roomExec, hpc, Option.some.injEq] at h
    exact h ▸ .assign i k hpc
  | run i k =>
    simp only [roomExec, hpc, Option.some.injEq] at h
    exact h ▸ .run i k hpc
  | joinAcquire i =>
    simp only [roomExec, hpc] at h
    split_ifs at h with hlock
    rw [Option.some.injEq] at h
    exact h ▸ .joinAcquire i hpc (by simpa using hlock)
  | joinRelease i =>
    simp only [roomExec, hpc, Option.some.injEq] at h
    exact h ▸ .joinRelease i hpc
  | sleep =>
    simp only [roomExec, hpc, Option.some.injEq] at h
    exact h ▸ .sleep hpc
  | complete =>
    simp only [roomExec, hpc, Option.some.injEq] at h
    exact h ▸ .complete hpc
  | returning =>
    simp only [roomExec, hpc, Option.some.injEq] at h
    exact h ▸ .returning hpc
  | finished => simp [roomExec, hpc] at h
  | joined => simp [roomExec, hpc] at h

theorem workerStep_of_exec {k : Fin threadCount} (h : s.workerExec k = some s') :
    s.WorkerStep k s' := by
  -- the steps of the loop are the same at four program points
  have hadvance : (((s.workers k).advance none).map fun w => s.withWorker k w) = some s' →
      s.WorkerStep k s' := by
    intro h
    obtain ⟨w, hw, rfl⟩ := Option.map_eq_some_iff.1 h
    exact .advance w hw
  cases hpc : (s.workers k).pc with
  | call locals =>
    cases locals with
    | none =>
      simp only [workerExec, hpc, Option.bind_eq_some_iff, Option.map_eq_some_iff,
        jobAssemble] at h
      obtain ⟨j, hj, c, hc, _, ⟨bytes, hb, rfl⟩, rfl⟩ := h
      exact .assemble j c bytes hpc hj hc hb
    | some a =>
      simp only [workerExec, hpc, Option.bind_eq_some_iff, Option.map_eq_some_iff] at h
      obtain ⟨j, hj, c, hc, rfl⟩ := h
      exact .send j c a hpc hj hc
  | done =>
    simp only [workerExec, hpc, Option.map_eq_some_iff] at h
    obtain ⟨j, hj, rfl⟩ := h
    exact .done j hpc hj
  | releaseRunning | acquireRunning | releaseThread | awaitRun =>
    simp only [workerExec, hpc] at h
    exact hadvance h

theorem locked_eq_some {t : ThreadId} {wants : Option Mutex} {exec : Option System}
    (h : s.locked t wants exec = some s') :
    (∃ m, s.owner m = none ∧ wants = some m ∧
      s' = { s with owner := s.owner.acquire m t }) ∨
    (exec = some s' ∧ ∀ m, wants = some m → s.owner m = some t) := by
  cases wants with
  | none => exact .inr ⟨h, fun _ hm => by cases hm⟩
  | some m =>
    simp only [locked] at h
    split at h
    · rename_i hfree
      exact .inl ⟨m, hfree, rfl, (Option.some.inj h).symm⟩
    · rename_i t' howner
      split_ifs at h with ht
      exact .inr ⟨h, fun m' hm => by rw [← Option.some.inj hm, howner, ht]⟩

/-- Every step of the machine is one of those. -/
theorem next_step {l : Label} (h : s.next l = some s') : s.Step l s' := by
  cases l with
  | onOpen handle =>
    simp only [next] at h
    split_ifs at h with hc
    exact Option.some.inj h ▸ .call _ (.onOpen handle hc.1 hc.2)
  | onMessage handle message =>
    simp only [next] at h
    split_ifs at h with hc
    exact Option.some.inj h ▸ .call _ (.onMessage handle message hc.1 hc.2)
  | onClose handle =>
    simp only [next] at h
    split_ifs at h with hc
    exact Option.some.inj h ▸ .call _ (.onClose handle hc.1 hc.2.1 hc.2.2)
  | endSession handle => exact Option.some.inj h ▸ .call _ (.endSession handle)
  | refreshKeys table =>
    simp only [next] at h
    split_ifs at h with hc
    exact Option.some.inj h ▸ .call _ (.refreshKeys table hc)
  | relay =>
    rcases locked_eq_some h with ⟨m, hfree, hw, rfl⟩ | ⟨hexec, howner⟩
    · exact .acquire _ .relay m hfree hw
    · obtain ⟨s₁, h₁, rfl⟩ := Option.map_eq_some_iff.1 hexec
      exact .relay (relayStep_of_exec h₁) howner
  | room t =>
    rcases locked_eq_some h with ⟨m, hfree, hw, rfl⟩ | ⟨hexec, howner⟩
    · exact .acquire _ (.room t) m hfree hw
    · obtain ⟨s₁, h₁, rfl⟩ := Option.map_eq_some_iff.1 hexec
      exact .room t (roomStep_of_exec h₁) howner
  | worker k => exact .worker k (workerStep_of_exec h)

end System

end MoonJamRelay
