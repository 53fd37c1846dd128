import MoonJamRelay.Threads.Lives
import MoonJamRelay.Threads.Refinement

/-!
# What a message changes

`onMessage` has six exits before `addPacket`.  A message that is refused should leave the tables and
the room threads as they were; but a moon client is noted and its room is created before the size of
the message is checked.

* `System.OnMessage` : the run of one call, with the steps of the other threads.
* `System.Kept` : the tables and the room threads are those from before the call;
  `System.OneAccepted` : one packet was accepted into one room.
* `System.Stage` : the invariant of the call.
* `lawful_iff` : the call either changes nothing or accepts one packet, unless a message that is too
  long makes its sender a moon client (`System.JoinsTooLong`).
-/

namespace MoonJamRelay

/-- The entry is made by the relay thread. -/
def LogEntry.ofRelay : LogEntry → Bool
  | .opened .. | .resolved .. | .accepted .. | .destroyed .. => true
  | .took .. | .listed .. | .sent .. => false

/-- A tick took the packets of the room. -/
def LogEntry.takesFrom (room : Hash) : LogEntry → Bool
  | .took _ _ r _ => decide (r = room)
  | _ => false

open Log

namespace System

/-- What was logged after the state `b`. -/
def since (b s : System) : List LogEntry := s.log.drop b.log.length

/-- What the relay thread logged after the state `b`. -/
def relaySince (b s : System) : List LogEntry := (b.since s).filter LogEntry.ofRelay

/-- The states of a call of `onMessage` that was made in the state `b`; when the relay thread is
idle, the call has returned.  Other threads step in between. -/
inductive OnMessage (b : System) (handle : ConnectionHdl) (message : List UInt8) : System → Prop
  | call {s : System} : b.next (.onMessage handle message) = some s → OnMessage b handle message s
  | step {s s' : System} {l : Label} : OnMessage b handle message s → s.relayPc ≠ .idle →
      s.next l = some s' → OnMessage b handle message s'

/-- The room threads, and all tables but the contents of `m_packets`, are those of `b`. -/
structure Kept (b s : System) : Prop where
  rooms : ∀ room, room ∈ s.accumulator.packets ↔ room ∈ b.accumulator.packets
  handles : s.accumulator.handles = b.accumulator.handles
  moons : ∀ i, s.server.moonIdentifierToRoomMap.lookup i =
    b.server.moonIdentifierToRoomMap.lookup i
  identifiers : s.server.handlePointerToIdentifierMap = b.server.handlePointerToIdentifierMap
  reserved : s.server.reservedIdentifiers = b.server.reservedIdentifiers
  roomThreads : s.roomThreads = b.roomThreads
  spawned : s.spawned = b.spawned

/-- The call changed nothing: the packets of a room still wait, unless a tick has taken them. -/
structure Unchanged (b s : System) : Prop extends Kept b s where
  packets : ∀ room, s.accumulator.packets.lookup room = (b.accumulator.packets.lookup room).map
    fun waiting => if (b.since s).any (LogEntry.takesFrom room) then [] else waiting

/-- The call appended the packet `p` of the message to the list of one room, and registered its
connection there if it was not. -/
def OneAccepted (b : System) (handle : ConnectionHdl) (message : List UInt8) (s : System) : Prop :=
  ∃ table room p registered,
    b.relaySince s = [.resolved handle message table, .accepted room p registered] ∧
    p.sender = handle ∧ p.message = message ∧
    (∀ r, s.accumulator.pending r =
      (b.since s).foldl (fun waiting e => e.wait r waiting) (b.accumulator.pending r)) ∧
    (∀ r, r ≠ room → s.accumulator.registered r = b.accumulator.registered r) ∧
    (s.accumulator.registered room = b.accumulator.registered room ∨
      s.accumulator.registered room =
        b.accumulator.registered room ++ [⟨b.server.getIdentifier handle, handle⟩])

/-- No packet was accepted, and nothing was changed; or one packet was accepted. -/
def Lawful (b : System) (handle : ConnectionHdl) (message : List UInt8) (s : System) : Prop :=
  ((∀ room p registered, .accepted room p registered ∉ b.since s) → b.Unchanged s) ∧
    ((∃ room p registered, .accepted room p registered ∈ b.since s) →
      b.OneAccepted handle message s)

/-- The message is too long, and its key is a moon key of the table; the connection is not noted as
a moon client of the room. -/
def JoinsTooLong (b : System) (handle : ConnectionHdl) (message : List UInt8)
    (table : KeyManager) : Prop :=
  hashLength + maxPacketSize < message.length ∧
    table.getRoom (Hash.ofBytes message) = Hash.ofBytes message ∧
    Hash.ofBytes message ≠ Hash.empty ∧
    b.server.moonIdentifierToRoomMap.lookup (b.server.getIdentifier handle) ≠
      some (Hash.ofBytes message)

variable {keys : KeyManager} {b s s' : System} {handle : ConnectionHdl} {message : List UInt8}

theorem OnMessage.reaches (h : b.OnMessage handle message s) : (relaySystem keys).Reaches b s := by
  have hnext : ∀ {u v : System} {l : Label}, u.next l = some v →
      (relaySystem keys).next u l = some v := id
  induction h with
  | call hst => exact .tail .refl (hnext hst)
  | step _ _ hst ih => exact .tail ih (hnext hst)

/-! ### The steps of the other threads -/

/-- A step that leaves alone what `onMessage` works on. -/
structure Beside (s s' : System) : Prop extends Kept s s' where
  relayPc : s'.relayPc = s.relayPc
  log : ∃ es, s'.log = s.log ++ es ∧ es.filter LogEntry.ofRelay = []

theorem Kept.of_eq (hserver : s'.server = s.server) (hthreads : s'.roomThreads = s.roomThreads)
    (hspawned : s'.spawned = s.spawned) : s.Kept s' := by
  have hacc : s'.accumulator = s.accumulator := congrArg RelayServer.packetAccumulator hserver
  exact ⟨fun _ => by rw [hacc], by rw [hacc], fun _ => by rw [hserver], by rw [hserver],
    by rw [hserver], hthreads, hspawned⟩

theorem Kept.trans {u : System} (h : b.Kept s) (h' : s.Kept u) : b.Kept u where
  rooms room := (h'.rooms room).trans (h.rooms room)
  handles := h'.handles.trans h.handles
  moons i := (h'.moons i).trans (h.moons i)
  identifiers := h'.identifiers.trans h.identifiers
  reserved := h'.reserved.trans h.reserved
  roomThreads := h'.roomThreads.trans h.roomThreads
  spawned := h'.spawned.trans h.spawned

theorem Kept.getPackets {room : Hash}
    (hserver : s'.server = { s.server with packetAccumulator := (s.accumulator.getPackets room).2 })
    (hthreads : s'.roomThreads = s.roomThreads) (hspawned : s'.spawned = s.spawned) :
    s.Kept s' := by
  have hacc : s'.accumulator = (s.accumulator.getPackets room).2 :=
    congrArg RelayServer.packetAccumulator hserver
  refine ⟨fun r => ?_, ?_, fun _ => by rw [hserver], by rw [hserver], by rw [hserver], hthreads,
    hspawned⟩
  · rw [hacc]
    exact PacketAccumulator.mem_packets_getPackets r
  · rw [hacc]
    exact PacketAccumulator.handles_getPackets

theorem RoomStep.beside {t : ℕ} (hst : s.RoomStep t s') : s.Beside s' := by
  cases hst with
  | noPackets => exact ⟨.getPackets rfl rfl rfl, rfl, [], (List.append_nil _).symm, rfl⟩
  | getPackets => exact ⟨.getPackets rfl rfl rfl, rfl, _, rfl, rfl⟩
  | getConnections => exact ⟨.of_eq rfl rfl rfl, rfl, _, rfl, rfl⟩
  | _ => exact ⟨.of_eq rfl rfl rfl, rfl, [], (List.append_nil _).symm, rfl⟩

theorem WorkerStep.beside {k : Fin threadCount} (hst : s.WorkerStep k s') : s.Beside s' := by
  cases hst with
  | send => exact ⟨.of_eq rfl rfl rfl, rfl, _, rfl, rfl⟩
  | _ => exact ⟨.of_eq rfl rfl rfl, rfl, [], (List.append_nil _).symm, rfl⟩

theorem Beside.withOwner (h : s.Beside s') (owner : Locks Mutex ThreadId) :
    s.Beside { s' with owner := owner } :=
  ⟨h.toKept.trans (.of_eq rfl rfl rfl), h.relayPc, h.log⟩

/-- While a handler runs, a step is a section of the relay thread, or a step beside it. -/
theorem relayStep_or_beside {l : Label} (hst : s.next l = some s') (hpc : s.relayPc ≠ .idle) :
    (∃ u, s.RelayStep u ∧ u.Beside s') ∨ s.Beside s' := by
  have hself : ∀ u : System, u.Beside u := fun u =>
    ⟨.of_eq rfl rfl rfl, rfl, [], (List.append_nil _).symm, rfl⟩
  cases next_step hst with
  | call _ hcall =>
    cases hcall with
    | onOpen _ hidle | onMessage _ _ hidle | onClose _ hidle => exact absurd hidle hpc
    | endSession | refreshKeys =>
      exact .inr ⟨.of_eq rfl rfl rfl, rfl, [], (List.append_nil _).symm, rfl⟩
  | acquire => exact .inr ((hself s).withOwner _)
  | relay hrelay => exact .inl ⟨_, hrelay, (hself _).withOwner _⟩
  | room t hroom => exact .inr (hroom.beside.withOwner _)
  | worker k hworker => exact .inr hworker.beside

/-! ### The invariant of a call -/

theorem relaySince_of_append {es : List LogEntry} (hp : b.log <+: s.log)
    (hlog : s'.log = s.log ++ es) :
    b.relaySince s' = b.relaySince s ++ es.filter LogEntry.ofRelay := by
  rw [relaySince, since, hlog, List.drop_append_of_le_length hp.length_le, List.filter_append]
  rfl

/-- The message leaves everything as it is until its size is checked: it is not from a moon client,
or its connection is noted as a moon client of the room already. -/
def Quiet (b : System) (r : Request) : Prop :=
  r.moonClient = false ∨ b.server.moonIdentifierToRoomMap.lookup r.identifier = some r.room

/-- The key of the message was found in the table, and its packet was not accepted yet. -/
structure Addressed (b s : System) (handle : ConnectionHdl) (message : List UInt8) (r : Request)
    (table : KeyManager) : Prop where
  handle_eq : r.handle = handle
  message_eq : r.message = message
  identifier : r.identifier = b.server.getIdentifier handle
  room : table.getRoom (Hash.ofBytes message) = r.room
  nonempty : r.room ≠ Hash.empty
  log : b.relaySince s = [.resolved handle message table]
  kept : b.Quiet r → b.Kept s
  registered : ∀ x, s.accumulator.registered x = b.accumulator.registered x

/-- The rooms are still those of `b`. -/
def SameRooms (b s : System) : Prop :=
  ∀ x, x ∈ s.accumulator.packets ↔ x ∈ b.accumulator.packets

/-- A moon client has been noted. -/
def Noted (s : System) (r : Request) : Prop :=
  r.moonClient = true → s.server.moonIdentifierToRoomMap.lookup r.identifier = some r.room

/-- The room of the message exists, and the accepted packet is the first change. -/
def Sized (b s : System) (handle : ConnectionHdl) (message : List UInt8) (r : SizedRequest) :
    Prop :=
  ∃ table, b.Addressed s handle message r.toRequest table ∧ r.room ∈ s.accumulator.packets

/-- A call of `RoomManager::createRoom` is in progress. -/
def Creates (b s : System) (handle : ConnectionHdl) (message : List UInt8) (r : Request) : Prop :=
  ∃ table, b.Addressed s handle message r table ∧ s.Noted r ∧ ¬ b.Quiet r ∧
    r.room ∈ s.accumulator.packets

/-- The packet was appended, and its connection is not registered yet. -/
structure Appended (b s : System) (handle : ConnectionHdl) (message : List UInt8)
    (r : SizedRequest) : Prop where
  handle_eq : r.handle = handle
  message_eq : r.message = message
  identifier : r.identifier = b.server.getIdentifier handle
  log : ∃ table p registered, p.sender = handle ∧ p.message = message ∧
    b.relaySince s = [.resolved handle message table, .accepted r.room p registered]
  registered : ∀ x, s.accumulator.registered x = b.accumulator.registered x

/-- How the call ends. -/
inductive Outcome (b s : System) (handle : ConnectionHdl) (message : List UInt8) : Prop
  | refused : b.Kept s → (∀ e ∈ b.relaySince s, ∃ table, e = .resolved handle message table) →
      (∀ table, .resolved handle message table ∈ b.relaySince s →
        ¬ b.JoinsTooLong handle message table) → Outcome b s handle message
  | joined (table : KeyManager) : b.relaySince s = [.resolved handle message table] →
      b.JoinsTooLong handle message table →
      s.server.moonIdentifierToRoomMap.lookup (b.server.getIdentifier handle) =
        some (Hash.ofBytes message) → Outcome b s handle message
  | accepted (table : KeyManager) (room : Hash) (p : Packet)
      (registered : List ReceivedConnection) : message.length ≤ hashLength + maxPacketSize →
      b.relaySince s = [.resolved handle message table, .accepted room p registered] →
      p.sender = handle → p.message = message →
      (∀ r, r ≠ room → s.accumulator.registered r = b.accumulator.registered r) →
      (s.accumulator.registered room = b.accumulator.registered room ∨
        s.accumulator.registered room =
          b.accumulator.registered room ++ [⟨b.server.getIdentifier handle, handle⟩]) →
      Outcome b s handle message

/-- The key of the message was not looked up yet. -/
def Arrived (b s : System) : Prop := b.relaySince s = [] ∧ b.Kept s

/-- How far a call of `onMessage` is at a program point. -/
def Stage (b s : System) (handle : ConnectionHdl) (message : List UInt8) : RelayPc → Prop
  | .getIdentifier h m => h = handle ∧ m = message ∧ b.Arrived s
  | .getRoom h m i => h = handle ∧ m = message ∧ i = b.server.getIdentifier handle ∧ b.Arrived s
  | .addMoon r => ∃ table, b.Addressed s handle message r table ∧ r.moonClient = true ∧
      b.SameRooms s
  | .hasRoom r => ∃ table, b.Addressed s handle message r table ∧ s.Noted r ∧ b.SameRooms s
  | .insertPackets r => ∃ table, b.Addressed s handle message r table ∧ s.Noted r ∧ ¬ b.Quiet r ∧
      b.SameRooms s
  | .insertHandles r => b.Creates s handle message r ∧ r.room ∉ b.accumulator.packets
  | .createRoom r | .cleanUp r | .join r _ | .startThread r => b.Creates s handle message r
  | .getPlayerLimit r | .playerCount r _ | .countConnections r _ | .appendPacket r =>
    b.Sized s handle message r
  | .registerHandle r => b.Appended s handle message r
  | .idle => b.Outcome s handle message
  | _ => False

/-! ### Steps of other threads keep the stage -/

theorem Beside.relaySince (h : s.Beside s') (hp : b.log <+: s.log) :
    b.relaySince s' = b.relaySince s := by
  obtain ⟨es, hlog, hes⟩ := h.log
  rw [relaySince_of_append hp hlog, hes, List.append_nil]

theorem Kept.registered (h : s.Kept s') (x : Hash) :
    s'.accumulator.registered x = s.accumulator.registered x := by
  rw [PacketAccumulator.registered, h.handles, ← PacketAccumulator.registered]

theorem Addressed.move {r : Request} {table : KeyManager} (h : b.Addressed s handle message r table)
    (hk : s.Kept s') (hlog : b.relaySince s' = b.relaySince s) :
    b.Addressed s' handle message r table :=
  { h with
    log := hlog.trans h.log
    kept := fun hq => (h.kept hq).trans hk
    registered := fun x => (hk.registered x).trans (h.registered x) }

theorem SameRooms.move (h : b.SameRooms s) (hk : s.Kept s') : b.SameRooms s' :=
  fun x => (hk.rooms x).trans (h x)

theorem Noted.move {r : Request} (h : s.Noted r) (hk : s.Kept s') : s'.Noted r :=
  fun hr => (hk.moons _).trans (h hr)

theorem Outcome.move (h : b.Outcome s handle message) (hk : s.Kept s')
    (hlog : b.relaySince s' = b.relaySince s) : b.Outcome s' handle message := by
  cases h with
  | refused h₁ h₂ h₃ => exact .refused (h₁.trans hk) (hlog ▸ h₂) (hlog ▸ h₃)
  | joined table h₁ h₂ h₃ => exact .joined table (hlog.trans h₁) h₂ ((hk.moons _).trans h₃)
  | accepted table room p registered h₁ h₂ h₃ h₄ h₅ h₆ =>
    exact .accepted table room p registered h₁ (hlog.trans h₂) h₃ h₄
      (fun r hr => (hk.registered r).trans (h₅ r hr)) ((hk.registered room) ▸ h₆)

theorem Creates.move {r : Request} (h : b.Creates s handle message r) (hk : s.Kept s')
    (hlog : b.relaySince s' = b.relaySince s) : b.Creates s' handle message r := by
  obtain ⟨table, ha, hn, hq, hroom⟩ := h
  exact ⟨table, ha.move hk hlog, hn.move hk, hq, (hk.rooms _).2 hroom⟩

theorem Sized.move {r : SizedRequest} (h : b.Sized s handle message r) (hk : s.Kept s')
    (hlog : b.relaySince s' = b.relaySince s) : b.Sized s' handle message r := by
  obtain ⟨table, ha, hroom⟩ := h
  exact ⟨table, ha.move hk hlog, (hk.rooms _).2 hroom⟩

theorem Stage.move {pc : RelayPc} (h : b.Stage s handle message pc) (hk : s.Kept s')
    (hlog : b.relaySince s' = b.relaySince s) : b.Stage s' handle message pc := by
  cases pc with
  | getIdentifier => exact ⟨h.1, h.2.1, hlog.trans h.2.2.1, h.2.2.2.trans hk⟩
  | getRoom => exact ⟨h.1, h.2.1, h.2.2.1, hlog.trans h.2.2.2.1, h.2.2.2.2.trans hk⟩
  | addMoon r =>
    obtain ⟨table, ha, hm, hs⟩ := h
    exact ⟨table, ha.move hk hlog, hm, hs.move hk⟩
  | hasRoom r =>
    obtain ⟨table, ha, hn, hs⟩ := h
    exact ⟨table, ha.move hk hlog, hn.move hk, hs.move hk⟩
  | insertPackets r =>
    obtain ⟨table, ha, hn, hq, hs⟩ := h
    exact ⟨table, ha.move hk hlog, hn.move hk, hq, hs.move hk⟩
  | insertHandles r => exact ⟨h.1.move hk hlog, h.2⟩
  | createRoom | cleanUp | join | startThread => exact Creates.move h hk hlog
  | getPlayerLimit | playerCount | countConnections | appendPacket => exact Sized.move h hk hlog
  | registerHandle r =>
    exact { h with
      log := by rw [hlog]; exact h.log
      registered := fun x => (hk.registered x).trans (h.registered x) }
  | idle => exact Outcome.move h hk hlog
  | _ => exact h.elim

/-! ### The sections of `onMessage` -/

theorem Kept.goto (pc : RelayPc) : s.Kept (s.goto pc) := .of_eq rfl rfl rfl

theorem Addressed.goto {r : Request} {table : KeyManager}
    (h : b.Addressed s handle message r table) (pc : RelayPc) :
    b.Addressed (s.goto pc) handle message r table := h.move (.goto pc) rfl

/-- A message that changed nothing is no message by which its connection joins. -/
theorem Addressed.not_joinsTooLong {r : Request} {table : KeyManager}
    (h : b.Addressed s handle message r table) (hq : b.Quiet r) {table' : KeyManager}
    (hm : .resolved handle message table' ∈ b.relaySince s) :
    ¬ b.JoinsTooLong handle message table' := by
  rw [h.log, List.mem_singleton] at hm
  cases hm
  rintro ⟨-, hmoon, -, hnew⟩
  have hroom : r.room = Hash.ofBytes message := h.room.symm.trans hmoon
  rcases hq with hq | hq
  · exact of_decide_eq_false hq (by rw [h.message_eq, hroom])
  · exact hnew (by rw [← h.identifier, hq, hroom])

theorem Addressed.refused {r : Request} {table : KeyManager}
    (h : b.Addressed s handle message r table) (hq : b.Quiet r) : b.Outcome s handle message := by
  refine .refused (h.kept hq) (fun e he => ?_) fun table' => h.not_joinsTooLong hq
  rw [h.log, List.mem_singleton] at he
  exact ⟨table, he⟩

theorem Addressed.checkSize {r : Request} {table : KeyManager}
    (h : b.Addressed s handle message r table) (hn : s.Noted r)
    (hroom : r.room ∈ s.accumulator.packets) : b.Stage s handle message r.checkSize := by
  unfold Request.checkSize
  split_ifs with hsize
  · by_cases hq : b.Quiet r
    · exact h.refused hq
    · -- a moon client that was not noted before
      rw [Quiet, not_or, Bool.not_eq_false] at hq
      have hmoon : r.room = Hash.ofBytes message := h.message_eq ▸ of_decide_eq_true hq.1
      refine .joined table h.log ⟨h.message_eq ▸ hsize, h.room.trans hmoon, hmoon ▸ h.nonempty,
        ?_⟩ ?_
      · rw [← h.identifier, ← hmoon]
        exact hq.2
      · rw [← h.identifier, ← hmoon]
        exact hn hq.1
  · exact ⟨table, h, hroom⟩

theorem Creates.checkSize {r : Request} (h : b.Creates s handle message r) :
    b.Stage s handle message r.checkSize := by
  obtain ⟨table, ha, hn, -, hroom⟩ := h
  exact ha.checkSize hn hroom

theorem Arrived.refused (h : b.Arrived s) : b.Outcome s handle message := by
  refine .refused h.2 (fun e he => ?_) fun table hm => ?_
  · rw [h.1] at he
    cases he
  · rw [h.1] at hm
    cases hm

theorem Goto.stage (hb : b.server.Tables b.connected) (h : b.Stage s handle message s.relayPc)
    {pc : RelayPc} (hg : s.Goto pc) : b.Stage s handle message pc := by
  cases hg with
  | closeIdentifier _ hpc | destroyNothing _ _ _ hpc | closePlayerCount _ _ hpc =>
    rw [hpc] at h
    exact h.elim
  | noIdentifier _ _ hpc =>
    rw [hpc] at h
    exact h.2.2.refused
  | getIdentifier _ _ hpc =>
    rw [hpc] at h
    obtain ⟨rfl, rfl, harrived⟩ := h
    refine ⟨rfl, rfl, ?_, harrived⟩
    rw [RelayServer.getIdentifier, harrived.2.identifiers, ← RelayServer.getIdentifier]
  | hasRoom r hpc hroom =>
    rw [hpc] at h
    obtain ⟨table, ha, hn, -⟩ := h
    exact ha.checkSize hn hroom
  | newRoom r hpc hroom hmoon =>
    rw [hpc] at h
    obtain ⟨table, ha, hn, hs⟩ := h
    refine ⟨table, ha, hn, ?_, hs⟩
    -- a room with a moon client exists
    rintro (hq | hq)
    · rw [hmoon] at hq
      cases hq
    · exact hroom ((hs _).2 (hb.moon_rooms _ _ hq))
  | oldRoom r hpc hroom =>
    rw [hpc] at h
    obtain ⟨table, ha, hn, -⟩ := h
    exact ha.checkSize hn hroom
  | createRoom r hpc | cleanUp r hpc =>
    rw [hpc] at h
    exact h
  | oldThread r hpc =>
    rw [hpc] at h
    exact Creates.checkSize h
  | getPlayerLimit r hpc | playerCount r _ hpc | countConnections r _ hpc =>
    rw [hpc] at h
    exact h
  | noPacket r hpc hroom =>
    rw [hpc] at h
    obtain ⟨-, -, hmem⟩ := h
    exact absurd hmem hroom

theorem Outcome.refuse (h : b.Outcome s handle message) (c : ConnectionHdl) :
    b.Outcome (s.refuse c) handle message := h.move (.of_eq rfl rfl rfl) rfl

theorem Arrived.getRoom (h : b.Arrived s) (hp : b.log <+: s.log) {r : Request}
    (hr : r = ⟨handle, message, b.server.getIdentifier handle,
      s.keys.getRoom (Hash.ofBytes message)⟩) (hne : r.room ≠ Hash.empty) :
    b.Addressed (s.record (.resolved handle message s.keys)) handle message r s.keys := by
  have hk : b.Kept (s.record (.resolved handle message s.keys)) := h.2.trans (.of_eq rfl rfl rfl)
  subst hr
  refine ⟨rfl, rfl, rfl, rfl, hne, ?_, fun _ => hk, hk.registered⟩
  rw [relaySince_of_append hp rfl, h.1]
  rfl

theorem Arrived.unknownKey (h : b.Arrived s) (hp : b.log <+: s.log)
    (hkey : s.keys.getRoom (Hash.ofBytes message) = Hash.empty) :
    b.Outcome (s.record (.resolved handle message s.keys)) handle message := by
  have hlog : b.relaySince (s.record (.resolved handle message s.keys)) =
      [.resolved handle message s.keys] := by
    rw [relaySince_of_append hp rfl, h.1]
    rfl
  refine .refused (h.2.trans (.of_eq rfl rfl rfl)) (fun e he => ?_) fun table hm => ?_
  · rw [hlog, List.mem_singleton] at he
    exact ⟨s.keys, he⟩
  · rw [hlog, List.mem_singleton] at hm
    cases hm
    rintro ⟨-, hmoon, hne, -⟩
    exact hne (hmoon.symm.trans hkey)

/-- A call that is not quiet may change the rooms and the room threads. -/
theorem Addressed.change {r : Request} {table : KeyManager}
    (h : b.Addressed s handle message r table) (hq : ¬ b.Quiet r)
    (hlog : b.relaySince s' = b.relaySince s)
    (hreg : ∀ x, s'.accumulator.registered x = s.accumulator.registered x) :
    b.Addressed s' handle message r table :=
  { h with
    log := hlog.trans h.log
    kept := fun hq' => absurd hq' hq
    registered := fun x => (hreg x).trans (h.registered x) }

theorem Creates.threads {r : Request} (h : b.Creates s handle message r)
    (hlog : b.relaySince s' = b.relaySince s) (hserver : s'.server = s.server) :
    b.Creates s' handle message r := by
  obtain ⟨table, ha, hn, hq, hroom⟩ := h
  have hacc : s'.accumulator = s.accumulator := congrArg RelayServer.packetAccumulator hserver
  refine ⟨table, ha.change hq hlog fun x => by rw [hacc], fun hm => ?_, hq, hacc ▸ hroom⟩
  rw [hserver]
  exact hn hm

theorem Addressed.addMoon {r : Request} {table : KeyManager}
    (h : b.Addressed s handle message r table) (hm : r.moonClient = true)
    (hserver : s'.server = s.server.addMoon r.identifier r.room)
    (hlog : b.relaySince s' = b.relaySince s) (hthreads : s'.roomThreads = s.roomThreads)
    (hspawned : s'.spawned = s.spawned) : b.Addressed s' handle message r table := by
  have hacc : s'.accumulator = s.accumulator := by
    rw [accumulator, hserver]
    rfl
  refine { h with
    log := hlog.trans h.log
    kept := fun hq => ?_
    registered := fun x => by rw [hacc, h.registered] }
  -- the connection is noted for the room already
  have hk := h.kept hq
  have hnoted := hq.resolve_left (by rw [hm]; exact Bool.noConfusion)
  refine ⟨fun x => by rw [hacc, hk.rooms], by rw [hacc, hk.handles], fun i => ?_, ?_, ?_,
    hthreads.trans hk.roomThreads, hspawned.trans hk.spawned⟩
  · rw [hserver, RelayServer.addMoon, UnorderedMap.lookup_insert_eq]
    split_ifs with hi
    · rw [hi, hnoted]
    · exact hk.moons i
  · rw [hserver]
    exact hk.identifiers
  · rw [hserver]
    exact hk.reserved

theorem registered_of_not_mem (hb : b.server.Tables b.connected) {room : Hash}
    (hroom : room ∉ b.accumulator.packets) : b.accumulator.registered room = [] := by
  have hnone : b.accumulator.handles.lookup room = none :=
    AList.lookup_eq_none.2 fun hm => hroom ((hb.same_rooms room).2 hm)
  rw [PacketAccumulator.registered, hnone]
  rfl

theorem RelayStep.stage (hb : b.server.Tables b.connected) (hp : b.log <+: s.log)
    (h : b.Stage s handle message s.relayPc) (hst : s.RelayStep s') :
    b.Stage s' handle message s'.relayPc := by
  cases hst with
  | goto pc hg => exact (hg.stage hb h).move (.goto pc) rfl
  | claimIdentifier _ hpc | eraseMoon _ _ hpc | eraseLastMoon _ _ _ hpc | erasePackets _ _ _ hpc
  | eraseHandles _ _ _ hpc | removeConnection _ _ hpc | releaseIdentifier _ _ hpc =>
    rw [hpc] at h
    exact h.elim
  | tooShort c _ hpc =>
    rw [hpc] at h
    exact h.2.2.refused.refuse c
  | unknownKey c _ _ hpc hkey =>
    rw [hpc] at h
    obtain ⟨rfl, rfl, -, harrived⟩ := h
    exact (harrived.unknownKey hp hkey).refuse _
  | getRoom _ _ _ r pc hpc hr hne hcase =>
    rw [hpc] at h
    obtain ⟨rfl, rfl, rfl, harrived⟩ := h
    have ha := harrived.getRoom hp hr hne
    have hs : b.SameRooms s := harrived.2.rooms
    rcases hcase with ⟨rfl, hmoon⟩ | ⟨rfl, hmoon⟩
    · exact ⟨s.keys, ha.goto _, hmoon, hs⟩
    · exact ⟨s.keys, ha.goto _, fun hm => (by rw [hmoon] at hm; cases hm), hs⟩
  | addMoon r hpc =>
    rw [hpc] at h
    obtain ⟨table, ha, hm, hs⟩ := h
    refine ⟨table, ha.addMoon hm rfl rfl rfl rfl, fun _ => ?_, hs⟩
    exact AList.lookup_insert _
  | noRoom r hpc hroom hmoon =>
    rw [hpc] at h
    obtain ⟨table, ha, -⟩ := h
    exact (ha.refused (.inl hmoon)).refuse _
  | insertPackets r hpc hroom =>
    rw [hpc] at h
    obtain ⟨table, ha, hn, hq, hs⟩ := h
    refine ⟨⟨table, ha.change hq rfl fun _ => rfl, hn, hq, ?_⟩, fun hm => hroom ((hs _).2 hm)⟩
    exact AList.mem_insert _ |>.2 (.inl rfl)
  | insertHandles r hpc =>
    rw [hpc] at h
    obtain ⟨⟨table, ha, hn, hq, hmem⟩, hroom⟩ := h
    refine ⟨table, ha.change hq rfl fun x => ?_, hn, hq, hmem⟩
    refine (PacketAccumulator.registered_insertHandles x).trans ?_
    split_ifs with hx
    · rw [hx, ha.registered, registered_of_not_mem hb hroom]
    · rfl
  | endJoin r hpc | join r _ _ _ hpc =>
    rw [hpc] at h
    exact Creates.threads h rfl rfl
  | startThread r hpc =>
    rw [hpc] at h
    refine Creates.checkSize ?_
    exact Creates.threads h rfl rfl
  | full r limit hpc hmoon =>
    rw [hpc] at h
    obtain ⟨table, ha, -⟩ := h
    exact (ha.refused (.inl hmoon)).refuse _
  | appendPacket r hpc hroom =>
    rw [hpc] at h
    obtain ⟨table, ha, -⟩ := h
    refine ⟨ha.handle_eq, ha.message_eq, ha.identifier,
      ⟨table, s.newPacket r, s.accumulator.registered r.room, ha.handle_eq, ha.message_eq, ?_⟩,
      fun x => ?_⟩
    · refine (relaySince_of_append hp rfl).trans ?_
      rw [ha.log]
      rfl
    · exact (PacketAccumulator.registered_appendPacket _ _ _ x).trans (ha.registered x)
  | registerHandle r hpc =>
    rw [hpc] at h
    obtain ⟨hhandle, hmessage, hid, ⟨table, p, registered, hsender, hp', hlog⟩, hreg⟩ := h
    have hregistered := @PacketAccumulator.registered_registerHandle s.accumulator r.room
      r.identifier r.handle
    refine .accepted table r.room p registered (hmessage ▸ r.length_le) hlog hsender hp'
      (fun x hx => ?_) ?_
    · refine (hregistered x).trans ?_
      rw [if_neg fun he => hx he.1, hreg]
    · rw [← hid, ← hhandle, ← hreg]
      have hroom := hregistered r.room
      split_ifs at hroom
      · exact .inr hroom
      · exact .inl hroom

/-! ### The whole call -/

theorem relaySince_self (b : System) : b.relaySince b = [] := by
  rw [relaySince, since, List.drop_length]
  rfl

theorem OnMessage.stage (hb : (relaySystem keys).Reachable b) (hidle : b.relayPc = .idle)
    (h : b.OnMessage handle message s) : b.Stage s handle message s.relayPc := by
  have htables := (invariant_of_idle hb hidle).tables
  induction h with
  | call hst =>
    simp only [next] at hst
    split_ifs at hst
    obtain rfl := Option.some.inj hst
    exact ⟨rfl, rfl, relaySince_self b, .of_eq rfl rfl rfl⟩
  | @step u v l hcall hpc hst ih =>
    have hreaches : (relaySystem keys).Reaches b u := hcall.reaches
    have hp := log_prefix_of_reaches hreaches
    rcases relayStep_or_beside hst hpc with ⟨w, hrelay, hbeside⟩ | hbeside
    · have hp' := hp.trans hrelay.log_prefix
      rw [hbeside.relayPc]
      exact (hrelay.stage htables hp ih).move hbeside.toKept (hbeside.relaySince hp')
    · rw [hbeside.relayPc]
      exact ih.move hbeside.toKept (hbeside.relaySince hp)

/-- While the relay thread has a section to run, the call goes on. -/
theorem OnMessage.run (h : b.OnMessage handle message s) {n : ℕ}
    (hrun : (relaySystem keys).run s (List.replicate n .relay) = some s') :
    b.OnMessage handle message s' := by
  induction n generalizing s with
  | zero => exact Option.some.inj hrun ▸ h
  | succ n ih =>
    obtain ⟨u, hu, hr⟩ := Option.bind_eq_some_iff.1 hrun
    have hstep : s.next .relay = some u := hu
    refine ih (h.step (fun hpc => ?_) hstep) hr
    -- an idle relay thread has no section
    simp [next, locked, hpc, RelayPc.wants, relayExec] at hstep

theorem OnMessage.idle (h : b.OnMessage handle message s) : b.relayPc = .idle := by
  induction h with
  | call hst =>
    simp only [next] at hst
    split_ifs at hst with hif
    exact hif.1
  | step _ _ _ ih => exact ih

/-! ### The contents of `m_packets` -/

theorem mem_relaySince {e : LogEntry} (he : e.ofRelay = true) :
    e ∈ b.relaySince s ↔ e ∈ b.since s := by
  rw [relaySince, List.mem_filter, and_iff_left he]

theorem pending_since (hb : (relaySystem keys).Reachable b) (hs : (relaySystem keys).Reaches b s)
    (room : Hash) : s.accumulator.pending room =
      (b.since s).foldl (fun waiting e => e.wait room waiting) (b.accumulator.pending room) := by
  obtain ⟨post, hlog⟩ := log_prefix_of_reaches hs
  rw [(recorded_of_reachable (Machine.Reaches.trans hb hs)).pending,
    (recorded_of_reachable hb).pending, since, ← hlog, List.drop_left, pending, pending,
    List.foldl_append]

/-- When the relay thread only looks up a key, the packets wait until a tick takes them. -/
theorem foldl_wait {room : Hash} {post : List LogEntry}
    (hpost : ∀ e ∈ post, e.ofRelay = true → ∃ table, e = .resolved handle message table)
    (waiting : List Packet) : post.foldl (fun waiting e => e.wait room waiting) waiting =
      if post.any (LogEntry.takesFrom room) then [] else waiting := by
  induction post generalizing waiting with
  | nil => rfl
  | cons e post ih =>
    rw [List.foldl_cons, ih fun e' he' => hpost e' (List.mem_cons_of_mem _ he'), List.any_cons]
    have he := hpost e List.mem_cons_self
    cases e with
    | took t n r batch => by_cases hr : r = room <;> simp [LogEntry.wait, LogEntry.takesFrom, hr]
    | accepted | destroyed =>
      obtain ⟨table, he⟩ := he rfl
      cases he
    | _ => rfl

theorem Kept.unchanged (h : b.Kept s) (hb : (relaySystem keys).Reachable b)
    (hs : (relaySystem keys).Reaches b s)
    (hlog : ∀ e ∈ b.relaySince s, ∃ table, e = .resolved handle message table) :
    b.Unchanged s := by
  refine ⟨h, fun room => ?_⟩
  have hpending := pending_since hb hs room
  rw [foldl_wait fun e he hr => hlog e ((mem_relaySince hr).2 he)] at hpending
  cases hl : b.accumulator.packets.lookup room with
  | none =>
    have hnot : room ∉ s.accumulator.packets := fun hm =>
      AList.lookup_eq_none.1 hl ((h.rooms room).1 hm)
    rw [AList.lookup_eq_none.2 hnot]
    rfl
  | some waiting =>
    obtain ⟨waiting', hl'⟩ := UnorderedMap.mem_iff_lookup.1
      ((h.rooms room).2 (UnorderedMap.mem_of_lookup hl))
    rw [PacketAccumulator.pending, PacketAccumulator.pending, hl, hl'] at hpending
    rw [hl', Option.map_some, Option.some.injEq]
    exact hpending

end System

variable {keys : KeyManager} {b s : System} {handle : ConnectionHdl} {message : List UInt8}

/-- **A call of `onMessage` changes nothing or accepts one packet**, in every run, exactly if it is
not a message that is too long and makes its connection a moon client of a room. -/
theorem lawful_iff (hb : (relaySystem keys).Reachable b) (hcall : b.OnMessage handle message s)
    (hreturned : s.relayPc = .idle) : b.Lawful handle message s ↔
      ∀ table, .resolved handle message table ∈ b.since s →
        ¬ b.JoinsTooLong handle message table := by
  have hreaches : (relaySystem keys).Reaches b s := hcall.reaches
  have hstage := hcall.stage hb hcall.idle
  rw [hreturned] at hstage
  have hmem : ∀ {e : LogEntry}, e.ofRelay = true → (e ∈ b.since s ↔ e ∈ b.relaySince s) :=
    fun he => (System.mem_relaySince he).symm
  cases (hstage : b.Outcome s handle message) with
  | refused hkept hlog hnot =>
    have hnone : ∀ room p registered, .accepted room p registered ∉ b.since s := by
      intro room p registered hm
      obtain ⟨table, he⟩ := hlog _ ((hmem rfl).1 hm)
      cases he
    refine iff_of_true ⟨fun _ => hkept.unchanged hb hreaches hlog, ?_⟩ fun table hm =>
      hnot table ((hmem rfl).1 hm)
    rintro ⟨room, p, registered, hm⟩
    exact absurd hm (hnone room p registered)
  | joined table hlog hjoins hnoted =>
    refine iff_of_false (fun hlaw => ?_) fun hnot => ?_
    · refine hjoins.2.2.2 ?_
      rw [← (hlaw.1 fun room p registered hm => ?_).moons, hnoted]
      rw [hmem rfl, hlog, List.mem_singleton] at hm
      cases hm
    · refine hnot table ?_ hjoins
      rw [hmem rfl, hlog]
      exact List.mem_singleton_self _
  | accepted table room p registered hlen hlog hsender hmessage hother hroom =>
    have haccepted : .accepted room p registered ∈ b.since s := by
      rw [hmem rfl, hlog]
      exact List.mem_cons_of_mem _ List.mem_cons_self
    refine iff_of_true ⟨fun hnone => absurd haccepted (hnone _ _ _), fun _ =>
      ⟨table, room, p, registered, hlog, hsender, hmessage, System.pending_since hb hreaches,
        hother, hroom⟩⟩ fun table' _ hjoins => absurd hjoins.1 (Nat.not_lt.2 hlen)

/-! ### The first message of a moon client -/

/-- The moon client opens its connection. -/
def openLabels : List Label := [.onOpen moonHandle, .relay, .relay]

/-- A message with the moon key and one byte too many. -/
def longMessage : List UInt8 := moonKey.bytes ++ List.replicate (maxPacketSize + 1) 0

/-- The moon client sends its key. -/
theorem lawful_iff_of_start : ∃ b s, (relaySystem moonTable).Reachable b ∧
    b.OnMessage moonHandle moonKey.bytes s ∧ s.accumulator.accepted = 1 ∧
    (b.Lawful moonHandle moonKey.bytes s ↔
      ∀ table, .resolved moonHandle moonKey.bytes table ∈ b.since s →
        ¬ b.JoinsTooLong moonHandle moonKey.bytes table) := by
  have hrun : ((relaySystem moonTable).run (.init moonTable) openLabels).any (fun b =>
      (b.next (.onMessage moonHandle moonKey.bytes)).any fun u =>
        ((relaySystem moonTable).run u (List.replicate 28 .relay)).any fun s =>
          decide (s.relayPc = .idle ∧ s.accumulator.accepted = 1)) = true := by
    decide +kernel
  obtain ⟨b, hb, hb'⟩ := (Option.any_eq_true _ _).1 hrun
  obtain ⟨u, hu, hu'⟩ := (Option.any_eq_true _ _).1 hb'
  obtain ⟨s, hs, hs'⟩ := (Option.any_eq_true _ _).1 hu'
  obtain ⟨hidle, haccepted⟩ := of_decide_eq_true hs'
  have hcall : b.OnMessage moonHandle moonKey.bytes s := System.OnMessage.run (.call hu) hs
  exact ⟨b, s, .of_run hb, hcall, haccepted, lawful_iff (.of_run hb) hcall hidle⟩

/-- **A message that is too long can create a room**, although it is not accepted. -/
theorem not_lawful : ¬ ∀ keys b s handle message, (relaySystem keys).Reachable b →
    b.OnMessage handle message s → s.relayPc = .idle → b.Lawful handle message s := by
  intro h
  have hrun : ((relaySystem moonTable).run (.init moonTable) openLabels).any (fun b =>
      decide (b.spawned = 0) && (b.next (.onMessage moonHandle longMessage)).any fun u =>
        ((relaySystem moonTable).run u (List.replicate 18 .relay)).any fun s =>
          decide (s.relayPc = .idle ∧ s.accumulator.accepted = 0 ∧ s.spawned = 1)) = true := by
    decide +kernel
  obtain ⟨b, hb, hb'⟩ := (Option.any_eq_true _ _).1 hrun
  obtain ⟨hbefore, hb'⟩ := Bool.and_eq_true_iff.1 hb'
  obtain ⟨u, hu, hu'⟩ := (Option.any_eq_true _ _).1 hb'
  obtain ⟨s, hs, hs'⟩ := (Option.any_eq_true _ _).1 hu'
  obtain ⟨hidle, haccepted, hafter⟩ := of_decide_eq_true hs'
  have hreach : (relaySystem moonTable).Reachable b := .of_run hb
  have hcall : b.OnMessage moonHandle longMessage s := System.OnMessage.run (.call hu) hs
  have hreach' : (relaySystem moonTable).Reachable s := Machine.Reaches.trans hreach hcall.reaches
  have hlaw := h moonTable b s moonHandle longMessage hreach hcall hidle
  -- no packet was accepted, but a thread was started
  have hkept := hlaw.1 fun room p registered hm => by
    have hlt := (System.recorded_of_reachable hreach').accepted room p registered
      (List.mem_of_mem_drop hm)
    rw [haccepted] at hlt
    exact Nat.not_lt_zero _ hlt
  have hspawned := hkept.spawned
  rw [hafter, of_decide_eq_true hbefore] at hspawned
  cases hspawned

end MoonJamRelay
