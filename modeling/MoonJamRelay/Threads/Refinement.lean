import MoonJamRelay.Threads.Connections

/-!
# The threads refine the handlers

In `relay` a handler is one step.  In `relaySystem` it is cut at its locks, and room threads step in
between.  Still, whenever no handler runs, the tables are those of a run of `relay`: a handler takes
effect in its last section, except that a message which is accepted takes effect when its packet is
appended.

* `RelayServer.Same` : the same tables; the order of the entries of `m_packets` may differ.
* `RelayPc.done` : what a handler has made of the server it was called on; `RelayPc.Fits` : what it
  has found there.
* `System.Refines` : the simulation relation, kept by every step.
* `relay_of_idle` : the main result; `invariant_of_idle` : with it the invariant of the tables holds
  between the handler calls of the threaded machine, too.
-/

namespace MoonJamRelay

/-! ### Tables up to order -/

namespace PacketAccumulator

variable {a b c : PacketAccumulator} {room : Hash}

/-- The same tables, up to the order of the entries of `m_packets`. -/
structure Same (a b : PacketAccumulator) : Prop where
  packets : ∀ room, a.packets.lookup room = b.packets.lookup room
  handles : a.handles = b.handles
  accepted : a.accepted = b.accepted

theorem Same.refl (a : PacketAccumulator) : a.Same a := ⟨fun _ => rfl, rfl, rfl⟩

theorem Same.trans (h : a.Same b) (h' : b.Same c) : a.Same c :=
  ⟨fun r => (h.packets r).trans (h'.packets r), h.handles.trans h'.handles,
    h.accepted.trans h'.accepted⟩

theorem Same.of_eq (h : a = b) : a.Same b := h ▸ .refl a

theorem Same.mem (h : a.Same b) (room : Hash) : room ∈ a.packets ↔ room ∈ b.packets := by
  rw [← AList.lookup_isSome, ← AList.lookup_isSome, h.packets]

theorem Same.pending (h : a.Same b) (room : Hash) : a.pending room = b.pending room := by
  rw [PacketAccumulator.pending, h.packets, PacketAccumulator.pending]

theorem Same.registered (h : a.Same b) (room : Hash) : a.registered room = b.registered room := by
  rw [PacketAccumulator.registered, h.handles, PacketAccumulator.registered]

theorem Same.insertPackets (h : a.Same b) : (a.insertPackets room).Same (b.insertPackets room) :=
  ⟨fun r => by
    simp only [PacketAccumulator.insertPackets, UnorderedMap.lookup_insert_eq, h.packets],
    h.handles, h.accepted⟩

theorem Same.withHandles (h : a.Same b) (f : UnorderedMap Hash (List ReceivedConnection) →
    UnorderedMap Hash (List ReceivedConnection)) :
    Same { a with handles := f a.handles } { b with handles := f b.handles } :=
  ⟨h.packets, congrArg f h.handles, h.accepted⟩

theorem Same.insertHandles (h : a.Same b) : (a.insertHandles room).Same (b.insertHandles room) :=
  h.withHandles fun m => m.insert room []

theorem Same.erasePackets (h : a.Same b) : (a.erasePackets room).Same (b.erasePackets room) :=
  ⟨fun r => by simp only [PacketAccumulator.erasePackets, UnorderedMap.lookup_erase_eq, h.packets],
    h.handles, h.accepted⟩

theorem Same.eraseHandles (h : a.Same b) : (a.eraseHandles room).Same (b.eraseHandles room) :=
  h.withHandles fun m => m.erase room

theorem Same.removeConnection (h : a.Same b) {i : UInt16} :
    (a.removeConnection i).Same (b.removeConnection i) :=
  h.withHandles (UnorderedMap.mapValues fun connections : List ReceivedConnection =>
    connections.eraseP fun entry => entry.identifier = i)

theorem Same.appendPacket (h : a.Same b) {p : ReceivedPacket} {handle : ConnectionHdl}
    {message : List UInt8} :
    (a.appendPacket room p handle message).Same (b.appendPacket room p handle message) := by
  unfold PacketAccumulator.appendPacket
  by_cases hr : room ∈ a.packets
  · rw [if_pos hr, if_pos ((h.mem room).1 hr), h.pending, h.accepted]
    refine ⟨fun r => ?_, h.handles, rfl⟩
    simp only [UnorderedMap.lookup_insert_eq, h.packets]
  · rwa [if_neg hr, if_neg fun hb => hr ((h.mem room).2 hb)]

theorem Same.registerHandle (h : a.Same b) {i : UInt16} {handle : ConnectionHdl} :
    (a.registerHandle room i handle).Same (b.registerHandle room i handle) := by
  refine ⟨h.packets, ?_, h.accepted⟩
  simp only [PacketAccumulator.registerHandle, h.registered, h.handles]

theorem getConnectionCount_congr (h : a.handles = b.handles) (i : UInt16) (room : Hash) :
    a.getConnectionCountWithoutConnection i room =
      b.getConnectionCountWithoutConnection i room := by
  unfold getConnectionCountWithoutConnection PacketAccumulator.registered
  rw [h]

theorem lookup_getPackets (r : Hash) : (a.getPackets room).2.packets.lookup r =
    if r = room then (a.packets.lookup r).map fun _ => [] else a.packets.lookup r := by
  unfold getPackets
  by_cases hroom : room ∈ a.packets
  · obtain ⟨l, hl⟩ := UnorderedMap.mem_iff_lookup.1 hroom
    rw [if_pos hroom, UnorderedMap.lookup_insert_eq]
    by_cases hr : r = room
    · rw [if_pos hr, if_pos hr, hr, hl, Option.map_some]
    · rw [if_neg hr, if_neg hr]
  · rw [if_neg hroom]
    by_cases hr : r = room
    · rw [if_pos hr, hr, AList.lookup_eq_none.2 hroom, Option.map_none]
    · rw [if_neg hr]

theorem Same.getPackets (h : a.Same b) : (a.getPackets room).2.Same (b.getPackets room).2 := by
  refine ⟨fun r => ?_, ?_, ?_⟩
  · simp only [lookup_getPackets, h.packets]
  · rw [handles_getPackets, handles_getPackets, h.handles]
  · rw [accepted_getPackets, accepted_getPackets, h.accepted]

/-! Taking the packets of a room commutes with the sections of the handlers, up to the appending of
a packet. -/

variable {r : Hash}

theorem getPackets_insertPackets :
    ((a.insertPackets r).getPackets room).2.Same ((a.getPackets room).2.insertPackets r) := by
  refine ⟨fun x => ?_, ?_, ?_⟩
  · simp only [lookup_getPackets, insertPackets, UnorderedMap.lookup_insert_eq]
    split_ifs <;> rfl
  · show ((a.insertPackets r).getPackets room).2.handles = (a.getPackets room).2.handles
    rw [handles_getPackets, handles_getPackets]
    rfl
  · show ((a.insertPackets r).getPackets room).2.accepted = (a.getPackets room).2.accepted
    rw [accepted_getPackets, accepted_getPackets]
    rfl

theorem getPackets_erasePackets :
    ((a.erasePackets r).getPackets room).2.Same ((a.getPackets room).2.erasePackets r) := by
  refine ⟨fun x => ?_, ?_, ?_⟩
  · simp only [lookup_getPackets, erasePackets, UnorderedMap.lookup_erase_eq]
    split_ifs <;> rfl
  · show ((a.erasePackets r).getPackets room).2.handles = (a.getPackets room).2.handles
    rw [handles_getPackets, handles_getPackets]
    rfl
  · show ((a.erasePackets r).getPackets room).2.accepted = (a.getPackets room).2.accepted
    rw [accepted_getPackets, accepted_getPackets]
    rfl

theorem getPackets_withHandles (f : UnorderedMap Hash (List ReceivedConnection) →
    UnorderedMap Hash (List ReceivedConnection)) :
    ({ a with handles := f a.handles }.getPackets room).2 =
      { (a.getPackets room).2 with handles := f (a.getPackets room).2.handles } := by
  unfold getPackets
  split_ifs <;> rfl

theorem getPackets_createRoom :
    ((a.createRoom r).getPackets room).2.Same ((a.getPackets room).2.createRoom r) := by
  unfold createRoom
  by_cases hr : r ∈ a.packets
  · rw [if_pos hr, if_pos ((mem_packets_getPackets r).2 hr)]
    exact .refl _
  · rw [if_neg hr, if_neg (mt (mem_packets_getPackets r).1 hr)]
    refine Same.trans (.of_eq (getPackets_withHandles fun m => m.insert r [])) ?_
    exact getPackets_insertPackets.insertHandles

theorem getPackets_destroyRoom :
    ((a.destroyRoom r).getPackets room).2.Same ((a.getPackets room).2.destroyRoom r) := by
  unfold destroyRoom
  by_cases hr : r ∈ a.packets
  · rw [if_pos hr, if_pos ((mem_packets_getPackets r).2 hr)]
    refine Same.trans (.of_eq (getPackets_withHandles fun m => m.erase r)) ?_
    exact getPackets_erasePackets.eraseHandles
  · rw [if_neg hr, if_neg (mt (mem_packets_getPackets r).1 hr)]
    exact .refl _

end PacketAccumulator

namespace RelayServer

variable {u v w : RelayServer} {i : UInt16} {room : Hash} {handle : ConnectionHdl}

/-- The same tables, up to the order of the entries of `m_packets`. -/
structure Same (u v : RelayServer) : Prop where
  map : u.handlePointerToIdentifierMap = v.handlePointerToIdentifierMap
  reserved : u.reservedIdentifiers = v.reservedIdentifiers
  moons : u.moonIdentifierToRoomMap = v.moonIdentifierToRoomMap
  accumulator : u.packetAccumulator.Same v.packetAccumulator

theorem Same.refl (u : RelayServer) : u.Same u := ⟨rfl, rfl, rfl, .refl _⟩

theorem Same.trans (h : u.Same v) (h' : v.Same w) : u.Same w :=
  ⟨h.map.trans h'.map, h.reserved.trans h'.reserved, h.moons.trans h'.moons,
    h.accumulator.trans h'.accumulator⟩

theorem Same.of_eq (h : u = v) : u.Same v := h ▸ .refl u

theorem Same.mem (h : u.Same v) (room : Hash) :
    room ∈ u.packetAccumulator.packets ↔ room ∈ v.packetAccumulator.packets :=
  h.accumulator.mem room

theorem Same.withAccumulator (h : u.Same v) {a b : PacketAccumulator} (hab : a.Same b) :
    Same { u with packetAccumulator := a } { v with packetAccumulator := b } :=
  ⟨h.map, h.reserved, h.moons, hab⟩

theorem Same.addMoon (h : u.Same v) : (u.addMoon i room).Same (v.addMoon i room) :=
  ⟨h.map, h.reserved, congrArg (fun m => m.insert i room) h.moons, h.accumulator⟩

theorem Same.eraseMoon (h : u.Same v) (i : UInt16) :
    (u.eraseMoon i).1.Same (v.eraseMoon i).1 ∧ (u.eraseMoon i).2 = (v.eraseMoon i).2 := by
  unfold RelayServer.eraseMoon
  rw [h.moons]
  cases v.moonIdentifierToRoomMap.lookup i with
  | none => exact ⟨h, rfl⟩
  | some room => exact ⟨⟨h.map, h.reserved, rfl, h.accumulator⟩, rfl⟩

theorem Same.claimIdentifier (h : u.Same v) :
    (u.claimIdentifier handle).Same (v.claimIdentifier handle) := by
  unfold RelayServer.claimIdentifier
  rw [h.reserved, h.map]
  simp only
  split_ifs
  · exact h
  · exact ⟨rfl, rfl, h.moons, h.accumulator⟩

theorem Same.releaseIdentifier (h : u.Same v) :
    (u.releaseIdentifier handle).Same (v.releaseIdentifier handle) := by
  unfold RelayServer.releaseIdentifier
  rw [h.reserved, h.map]
  cases v.handlePointerToIdentifierMap.lookup handle.pointer with
  | none => exact h
  | some i => exact ⟨rfl, rfl, h.moons, h.accumulator⟩

theorem Same.removeConnection (h : u.Same v) :
    (u.removeConnection i).Same (v.removeConnection i) :=
  h.withAccumulator h.accumulator.removeConnection

theorem Same.takePackets (h : u.Same v) : (u.takePackets room).Same (v.takePackets room) :=
  h.withAccumulator h.accumulator.getPackets

/-- What the invariant says of a server it says of the same tables in another order. -/
theorem Same.invariant (h : u.Same v) {connected : List ConnectionHdl}
    (hv : v.Invariant connected) : u.Invariant connected := by
  have howns : ∀ {i c}, u.Owns connected i c ↔ v.Owns connected i c := Owns.congr h.map
  have hreg := h.accumulator.registered
  refine ⟨hv.identifiers.congr h.map h.reserved, fun r => ?_, fun r => ?_, fun r e he => ?_,
    fun i r hi => ?_, fun i r hi => ?_⟩
  · rw [h.mem, h.accumulator.handles]
    exact hv.tables.same_rooms r
  · rw [hreg]
    exact hv.tables.nodup r
  · exact howns.2 (hv.tables.registered r e (hreg r ▸ he))
  · obtain ⟨c, hc⟩ := hv.tables.moons i r (h.moons ▸ hi)
    exact ⟨c, howns.2 hc⟩
  · exact (h.mem r).2 (hv.tables.moon_rooms i r (h.moons ▸ hi))

theorem eraseMoon_takePackets : (v.takePackets room).eraseMoon i =
    ((v.eraseMoon i).1.takePackets room, (v.eraseMoon i).2) := by
  show RelayServer.eraseMoon { v with packetAccumulator := _ } i = _
  unfold RelayServer.eraseMoon
  cases v.moonIdentifierToRoomMap.lookup i <;> rfl

theorem addMoonIf_takePackets {moonClient : Bool} {r : Hash} :
    (v.takePackets room).addMoonIf moonClient i r =
      (v.addMoonIf moonClient i r).takePackets room := by
  cases moonClient <;> rfl

theorem takePackets_ensureRoom {r : Hash} :
    ((v.ensureRoom r).takePackets room).Same ((v.takePackets room).ensureRoom r) := by
  rw [ensureRoom_eq, ensureRoom_eq]
  exact (Same.refl v).withAccumulator PacketAccumulator.getPackets_createRoom

theorem takePackets_removeConnection :
    (v.removeConnection i).takePackets room = (v.takePackets room).removeConnection i :=
  congrArg (fun a => { v with packetAccumulator := a })
    (PacketAccumulator.getPackets_withHandles _)

theorem destroyIfSome_of_not_mem (h : room ∉ v.packetAccumulator.packets) :
    v.destroyIfSome (some room) = v :=
  congrArg (fun a => { v with packetAccumulator := a }) (if_neg h)

theorem destroyIfSome_of_mem (h : room ∈ v.packetAccumulator.packets) :
    v.destroyIfSome (some room) = { v with
      packetAccumulator := (v.packetAccumulator.erasePackets room).eraseHandles room } :=
  congrArg (fun a => { v with packetAccumulator := a }) (if_pos h)

theorem takePackets_destroyIfSome {r : Option Hash} :
    ((v.destroyIfSome r).takePackets room).Same ((v.takePackets room).destroyIfSome r) := by
  cases r with
  | none => exact .refl _
  | some r => exact (Same.refl v).withAccumulator PacketAccumulator.getPackets_destroyRoom

end RelayServer

/-! ### What a handler has done -/

namespace Request

variable (r : Request) (v : RelayServer)

/-- The server after the client of a message is noted, if it is a moon client. -/
def noted : RelayServer := v.addMoonIf r.moonClient r.identifier r.room

/-- The server after the room of a moon client is created. -/
def ensured : RelayServer := (r.noted v).ensureRoom r.room

/-- What `onMessage` knows of a message when it has found the room. -/
def Sound : Prop := hashLength ≤ r.message.length ∧ r.room ≠ Hash.empty

/-- `onMessage` goes on with the message after `hasRoom`. -/
def Admissible : Prop :=
  r.Sound ∧ (r.moonClient = true ∨ r.room ∈ v.packetAccumulator.packets)

end Request

namespace RelayPc

/-- What the handler at `pc` has made of the server `v` it was called on.  A message that is
accepted has taken effect before `registerHandle`: there `v` is the server after the call. -/
def done (v : RelayServer) : RelayPc → RelayServer
  | idle | claimIdentifier _ | closeIdentifier _ | eraseMoon .. | getIdentifier .. | getRoom ..
  | addMoon _ | registerHandle _ => v
  | erasePackets _ i _ => (v.eraseMoon i).1
  | eraseHandles _ i room =>
    { (v.eraseMoon i).1 with
      packetAccumulator := (v.eraseMoon i).1.packetAccumulator.erasePackets room }
  | closePlayerCount _ i | removeConnection _ i => (v.eraseMoon i).1.destroyIfSome (v.eraseMoon i).2
  | releaseIdentifier _ i =>
    ((v.eraseMoon i).1.destroyIfSome (v.eraseMoon i).2).removeConnection i
  | hasRoom r | insertPackets r => r.noted v
  | insertHandles r =>
    { r.noted v with packetAccumulator := (r.noted v).packetAccumulator.insertPackets r.room }
  | createRoom r | cleanUp r | join r _ | startThread r => r.ensured v
  | getPlayerLimit r | playerCount r _ | countConnections r _ | appendPacket r =>
    r.toRequest.ensured v

/-- What the handler at `pc` has still to do of a call that has taken effect. -/
def rest (u : RelayServer) : RelayPc → RelayServer
  | registerHandle r =>
    { u with
      packetAccumulator := u.packetAccumulator.registerHandle r.room r.identifier r.handle }
  | _ => u

/-- What the handler at `pc` has found out on the server `v` it was called on. -/
def Fits (v : RelayServer) : RelayPc → Prop
  | erasePackets _ i room => (v.eraseMoon i).2 = some room
  | eraseHandles _ i room =>
    (v.eraseMoon i).2 = some room ∧ room ∈ v.packetAccumulator.packets
  | getRoom _ message _ => hashLength ≤ message.length
  | addMoon r | insertPackets r | createRoom r | cleanUp r | join r _ | startThread r =>
    r.Sound ∧ r.moonClient = true
  | hasRoom r => r.Sound
  | insertHandles r => (r.Sound ∧ r.moonClient = true) ∧ r.room ∉ v.packetAccumulator.packets
  | getPlayerLimit r => r.Admissible v
  | playerCount r limit | countConnections r limit =>
    r.Admissible v ∧ ∃ keys : KeyManager, keys.getPlayerLimit r.room = limit
  | appendPacket r => r.Admissible v ∧ (r.moonClient = true ∨ ∃ keys : KeyManager,
      (r.toRequest.ensured v).packetAccumulator.getConnectionCountWithoutConnection r.identifier
        r.room < keys.getPlayerLimit r.room)
  | _ => True

variable {v : RelayServer} {room : Hash} {pc : RelayPc}

/-- A room thread takes packets while the handler is at `pc`. -/
theorem takePackets_done (v : RelayServer) (room : Hash) (pc : RelayPc) :
    ((pc.done v).takePackets room).Same (pc.done (v.takePackets room)) := by
  have hnoted : ∀ r : Request, r.noted (v.takePackets room) = (r.noted v).takePackets room :=
    fun r => RelayServer.addMoonIf_takePackets
  have hensured : ∀ r : Request,
      ((r.ensured v).takePackets room).Same (r.ensured (v.takePackets room)) := fun r => by
    rw [Request.ensured, Request.ensured, hnoted]
    exact RelayServer.takePackets_ensureRoom
  cases pc with
  | erasePackets h i r =>
    exact .of_eq (congrArg Prod.fst RelayServer.eraseMoon_takePackets).symm
  | eraseHandles h i r =>
    simp only [done, RelayServer.eraseMoon_takePackets]
    exact (RelayServer.Same.refl _).withAccumulator PacketAccumulator.getPackets_erasePackets
  | closePlayerCount h i | removeConnection h i =>
    simp only [done, RelayServer.eraseMoon_takePackets]
    exact RelayServer.takePackets_destroyIfSome
  | releaseIdentifier h i =>
    simp only [done, RelayServer.eraseMoon_takePackets]
    rw [RelayServer.takePackets_removeConnection]
    exact RelayServer.takePackets_destroyIfSome.removeConnection
  | hasRoom r | insertPackets r => exact .of_eq (hnoted r).symm
  | insertHandles r =>
    simp only [done, hnoted]
    exact (RelayServer.Same.refl _).withAccumulator PacketAccumulator.getPackets_insertPackets
  | createRoom r | cleanUp r | join r | startThread r => exact hensured r
  | getPlayerLimit r | playerCount r | countConnections r | appendPacket r =>
    exact hensured r.toRequest
  | _ => exact .refl _

theorem rest_takePackets (u : RelayServer) (room : Hash) (pc : RelayPc) :
    pc.rest (u.takePackets room) = (pc.rest u).takePackets room := by
  cases pc with
  | registerHandle r =>
    exact (congrArg (fun a => { u with packetAccumulator := a })
      (PacketAccumulator.getPackets_withHandles fun m =>
        m.insert r.room
          (if PacketAccumulator.contains r.identifier ((m.lookup r.room).getD []) then
            (m.lookup r.room).getD []
          else (m.lookup r.room).getD [] ++ [⟨r.identifier, r.handle⟩]))).symm
  | _ => rfl

theorem Fits.takePackets (h : pc.Fits v) (room : Hash) : pc.Fits (v.takePackets room) := by
  have hmem : ∀ r, r ∈ v.packetAccumulator.packets ↔
      r ∈ (v.takePackets room).packetAccumulator.packets := fun r =>
    (PacketAccumulator.mem_packets_getPackets r).symm
  have hadmissible : ∀ {r : Request}, r.Admissible v → r.Admissible (v.takePackets room) :=
    fun hr => ⟨hr.1, hr.2.imp_right (hmem _).1⟩
  cases pc with
  | erasePackets h' i r =>
    show ((v.takePackets room).eraseMoon i).2 = some r
    rw [RelayServer.eraseMoon_takePackets]
    exact h
  | eraseHandles h' i r =>
    refine ⟨?_, (hmem r).1 h.2⟩
    rw [RelayServer.eraseMoon_takePackets]
    exact h.1
  | insertHandles r => exact ⟨h.1, fun hr => h.2 ((hmem _).2 hr)⟩
  | getPlayerLimit r => exact hadmissible h
  | playerCount r limit | countConnections r limit => exact ⟨hadmissible h.1, h.2⟩
  | appendPacket r =>
    have hhandles : (r.ensured (v.takePackets room)).packetAccumulator.handles =
        (r.ensured v).packetAccumulator.handles :=
      (takePackets_done v room (.appendPacket r)).accumulator.handles.symm.trans
        PacketAccumulator.handles_getPackets
    refine ⟨hadmissible h.1, h.2.imp_right fun ⟨keys, hk⟩ => ⟨keys, ?_⟩⟩
    rwa [PacketAccumulator.getConnectionCount_congr hhandles]
  | _ => exact h

/-- A handler changes the pointer map in its last section only. -/
theorem map_done (v : RelayServer) (pc : RelayPc) :
    (pc.done v).handlePointerToIdentifierMap = v.handlePointerToIdentifierMap := by
  have hnoted : ∀ r : Request, (r.noted v).handlePointerToIdentifierMap =
      v.handlePointerToIdentifierMap := fun r => by
    unfold Request.noted RelayServer.addMoonIf
    split_ifs <;> rfl
  have hensured : ∀ r : Request, (r.ensured v).handlePointerToIdentifierMap =
      v.handlePointerToIdentifierMap := fun r => by
    rw [← hnoted r, Request.ensured, RelayServer.ensureRoom_eq]
    rfl
  have hdestroyed : ∀ i, ((v.eraseMoon i).1.destroyIfSome
      (v.eraseMoon i).2).handlePointerToIdentifierMap = v.handlePointerToIdentifierMap := by
    intro i
    refine Eq.trans ?_ (RelayServer.handlePointerToIdentifierMap_eraseMoon (i := i))
    cases (v.eraseMoon i).2 <;> rfl
  cases pc with
  | erasePackets h i r | eraseHandles h i r =>
    exact RelayServer.handlePointerToIdentifierMap_eraseMoon
  | closePlayerCount h i | removeConnection h i | releaseIdentifier h i => exact hdestroyed i
  | hasRoom r | insertPackets r | insertHandles r => exact hnoted r
  | createRoom r | cleanUp r | join r | startThread r => exact hensured r
  | getPlayerLimit r | playerCount r | countConnections r | appendPacket r =>
    exact hensured r.toRequest
  | _ => rfl

theorem map_rest (u : RelayServer) (pc : RelayPc) :
    (pc.rest u).handlePointerToIdentifierMap = u.handlePointerToIdentifierMap := by
  cases pc <;> rfl

end RelayPc

/-! ### How a message ends -/

namespace Request

variable {r : Request} {v : RelayServer} {atLimit : KeyManager}

/-- `onMessage` from where it has found the room of the message. -/
def answer (r : Request) (atLimit : KeyManager) (v : RelayServer) : RelayServer × Reply :=
  if ¬ (r.noted v).hasRoom r.room ∧ ¬ r.moonClient then (r.noted v, .noRoom r.room)
  else if h : r.message.length ≤ hashLength + maxPacketSize then
    if ¬ r.moonClient ∧ (r.ensured v).packetAccumulator.getConnectionCountWithoutConnection
        r.identifier r.room ≥ atLimit.getPlayerLimit r.room then (r.ensured v, .full r.room)
    else ((r.ensured v).addPacket r.room (receivedPacket r.identifier r.message h) r.handle
      r.message, .accepted r.room r.moonClient)
  else (r.ensured v, .oversized r.room r.moonClient)

theorem onMessage_eq_answer {keys : KeyManager} (hid : v.getIdentifier r.handle = r.identifier)
    (h0 : r.identifier ≠ 0) (hkey : keys.getRoom (Hash.ofBytes r.message) = r.room)
    (hs : r.Sound) : v.onMessage keys atLimit r.handle r.message = r.answer atLimit v := by
  rw [RelayServer.onMessage]
  simp only [hid, if_neg h0, if_neg (Nat.not_lt.2 hs.1), hkey, if_neg hs.2]
  refine if_congr Iff.rfl rfl ?_
  by_cases hsize : r.message.length ≤ hashLength + maxPacketSize
  · rw [dif_neg (Nat.not_lt.2 hsize), dif_pos hsize]
    rfl
  · rw [dif_pos (Nat.not_le.1 hsize), dif_neg hsize]
    rfl

theorem packets_noted : (r.noted v).packetAccumulator = v.packetAccumulator := by
  unfold noted RelayServer.addMoonIf
  split_ifs <;> rfl

theorem mem_of_noted {u : RelayServer} (h : u.Same (r.noted v)) :
    r.room ∈ u.packetAccumulator.packets ↔ r.room ∈ v.packetAccumulator.packets := by
  rw [h.mem r.room, packets_noted]

theorem ensured_of_mem (hr : r.room ∈ v.packetAccumulator.packets) : r.ensured v = r.noted v :=
  RelayServer.ensureRoom_of_mem (by rwa [packets_noted])

theorem mem_ensured : r.room ∈ (r.ensured v).packetAccumulator.packets :=
  (RelayServer.mem_packets_ensureRoom r.room).2 (.inl rfl)

theorem answer_noRoom (hm : r.moonClient = false) (hr : r.room ∉ v.packetAccumulator.packets) :
    (r.answer atLimit v).1 = r.noted v :=
  congrArg Prod.fst (if_pos ⟨by rwa [RelayServer.hasRoom, PacketAccumulator.hasRoom_iff,
    packets_noted], by simp [hm]⟩)

namespace Admissible

theorem not_noRoom (h : r.Admissible v) : ¬ (¬ (r.noted v).hasRoom r.room ∧ ¬ r.moonClient) := by
  rw [RelayServer.hasRoom, PacketAccumulator.hasRoom_iff, packets_noted]
  exact fun hn => h.2.elim hn.2 hn.1

theorem answer_oversized (h : r.Admissible v)
    (hsize : r.message.length > hashLength + maxPacketSize) :
    (r.answer atLimit v).1 = r.ensured v := by
  rw [answer, if_neg h.not_noRoom, dif_neg (Nat.not_le.2 hsize)]

theorem answer_full (h : r.Admissible v) (hsize : r.message.length ≤ hashLength + maxPacketSize)
    (hm : r.moonClient = false) (hfull : atLimit.getPlayerLimit r.room ≤
      (r.ensured v).packetAccumulator.getConnectionCountWithoutConnection r.identifier r.room) :
    (r.answer atLimit v).1 = r.ensured v := by
  rw [answer, if_neg h.not_noRoom, dif_pos hsize, if_pos ⟨by simp [hm], hfull⟩]

theorem answer_accepted (h : r.Admissible v)
    (hsize : r.message.length ≤ hashLength + maxPacketSize)
    (hroom : r.moonClient = true ∨
      (r.ensured v).packetAccumulator.getConnectionCountWithoutConnection r.identifier r.room <
        atLimit.getPlayerLimit r.room) :
    (r.answer atLimit v).1 = (r.ensured v).addPacket r.room
      (receivedPacket r.identifier r.message hsize) r.handle r.message := by
  rw [answer, if_neg h.not_noRoom, dif_pos hsize, if_neg]
  exact fun hn => hroom.elim hn.1 (Nat.not_lt.2 hn.2)

end Admissible

end Request

/-! ### The simulation -/

namespace System

/-- The threaded machine is at `s`, and the machine of the handlers at `w`: the running handler has
done its part of the call, which `w` has before it or, when it has taken effect, behind it. -/
structure Refines (s : System) (w : World) : Prop where
  server : (s.relayPc.rest s.server).Same (s.relayPc.done w.server)
  opened : s.opened = w.opened
  connected : s.connected = w.connected
  fits : s.relayPc.Fits w.server

variable {keys : KeyManager} {s s' : System} {w : World}

/-- The world can go on to one that `s` refines. -/
def Follows (s : System) (w : World) : Prop := ∃ w', relay.Reaches w w' ∧ s.Refines w'

theorem Refines.follows (h : s.Refines w) : s.Follows w := ⟨w, .refl, h⟩

theorem Refines.getIdentifier (h : s.Refines w) (handle : ConnectionHdl) :
    w.server.getIdentifier handle = s.server.getIdentifier handle := by
  have hmap := h.server.map
  rw [RelayPc.map_rest, RelayPc.map_done] at hmap
  rw [RelayServer.getIdentifier, ← hmap, RelayServer.getIdentifier]

theorem Refines.move (h : s.Refines w) (hopened : s'.opened = s.opened)
    (hconnected : s'.connected = s.connected)
    (hserver : (s'.relayPc.rest s'.server).Same (s'.relayPc.done w.server))
    (hfits : s'.relayPc.Fits w.server) : s'.Follows w :=
  Refines.follows ⟨hserver, hopened.trans h.opened, hconnected.trans h.connected, hfits⟩

theorem Refines.message (h : s.Refines w) (hopened : s'.opened = s.opened)
    (hconnected : s'.connected = s.connected) {handle : ConnectionHdl} (message : List UInt8)
    (atRoom atLimit : KeyManager) (hc : handle ∈ s.connected)
    (hserver : (s'.relayPc.rest s'.server).Same
      (w.server.onMessage atRoom atLimit handle message).1)
    (hdone : ∀ v, s'.relayPc.done v = v) (hfits : ∀ v, s'.relayPc.Fits v) : s'.Follows w := by
  have hcall : relay.next w (.onMessage handle message atRoom atLimit) = some _ :=
    World.next_onMessage.2 ⟨h.connected ▸ hc, rfl⟩
  refine ⟨_, .tail .refl hcall, ?_, hopened.trans h.opened, hconnected.trans h.connected, hfits _⟩
  rw [hdone]
  exact hserver

/-- A call of `onMessage` takes effect when its message has a room. -/
theorem Refines.answer (h : s.Refines w) (hh : s.Handling) {r : Request}
    (hr : s.relayPc.request = some r) (hs : r.Sound) (hopened : s'.opened = s.opened)
    (hconnected : s'.connected = s.connected) (atLimit : KeyManager)
    (hserver : (s'.relayPc.rest s'.server).Same (r.answer atLimit w.server).1)
    (hdone : ∀ v, s'.relayPc.done v = v) (hfits : ∀ v, s'.relayPc.Fits v) : s'.Follows w := by
  obtain ⟨h0, keys, -, hkey⟩ := hh.request r hr
  have hown := hh.owns hr
  have hid := (h.getIdentifier r.handle).trans hown.getIdentifier
  refine h.message hopened hconnected r.message keys atLimit hown.1 ?_ hdone hfits
  rwa [Request.onMessage_eq_answer hid h0 hkey hs]

/-- A message that is too long is dropped; otherwise `onMessage` goes on. -/
theorem Refines.checkSize (h : s.Refines w) (hh : s.Handling) {r : Request}
    (hr : s.relayPc.request = some r) (hadmissible : r.Admissible w.server)
    (hopened : s'.opened = s.opened) (hconnected : s'.connected = s.connected)
    (hserver : s'.server.Same (r.ensured w.server)) (hpc : s'.relayPc = r.checkSize) :
    s'.Follows w := by
  unfold Request.checkSize at hpc
  split_ifs at hpc with hsize
  · refine h.answer hh hr hadmissible.1 hopened hconnected s.keys ?_ ?_ ?_
    · rw [hadmissible.answer_oversized hsize, hpc]
      exact hserver
    · rw [hpc]
      exact fun _ => rfl
    · rw [hpc]
      exact fun _ => trivial
  · refine h.move hopened hconnected ?_ ?_
    · rw [hpc]
      exact hserver
    · rw [hpc]
      exact hadmissible

theorem Goto.follows (h : s.Refines w) (hh : s.Handling) {pc : RelayPc} (hg : s.Goto pc) :
    (s.goto pc).Follows w := by
  have hserver := h.server
  have hfits := h.fits
  cases hg with
  | closeIdentifier handle hpc =>
    rw [hpc] at hserver
    exact h.move rfl rfl hserver trivial
  | destroyNothing handle identifier room hpc hr =>
    rw [hpc] at hserver hfits
    refine h.move rfl rfl ?_ trivial
    show s.server.Same ((w.server.eraseMoon identifier).1.destroyIfSome
      (w.server.eraseMoon identifier).2)
    have hr' : room ∉ (w.server.eraseMoon identifier).1.packetAccumulator.packets :=
      mt (hserver.mem room).2 hr
    rw [show (w.server.eraseMoon identifier).2 = some room from hfits,
      RelayServer.destroyIfSome_of_not_mem hr']
    exact hserver
  | closePlayerCount handle identifier hpc =>
    rw [hpc] at hserver
    exact h.move rfl rfl hserver trivial
  | noIdentifier handle message hpc h0 =>
    rw [hpc] at hserver
    refine h.message rfl rfl message s.keys s.keys (hh.running _ (by rw [hpc]; rfl)) ?_
      (fun _ => rfl) fun _ => trivial
    rw [RelayServer.onMessage, if_pos ((h.getIdentifier handle).trans h0)]
    exact hserver
  | getIdentifier handle message hpc h0 hlen =>
    rw [hpc] at hserver
    exact h.move rfl rfl hserver hlen
  | hasRoom r hpc hr =>
    rw [hpc] at hserver hfits
    have hr' := (Request.mem_of_noted hserver).1 hr
    refine h.checkSize hh (by rw [hpc]; rfl) ⟨hfits, .inr hr'⟩ rfl rfl ?_ rfl
    rw [Request.ensured_of_mem hr']
    exact hserver
  | newRoom r hpc hr hm =>
    rw [hpc] at hserver hfits
    exact h.move rfl rfl hserver ⟨hfits, hm⟩
  | oldRoom r hpc hr =>
    rw [hpc] at hserver hfits
    have hr' := (Request.mem_of_noted hserver).1 hr
    refine h.checkSize hh (by rw [hpc]; rfl) ⟨hfits.1, .inr hr'⟩ rfl rfl ?_ rfl
    rw [Request.ensured_of_mem hr']
    exact hserver
  | createRoom r hpc | cleanUp r hpc =>
    rw [hpc] at hserver hfits
    exact h.move rfl rfl hserver hfits
  | oldThread r hpc =>
    rw [hpc] at hserver hfits
    exact h.checkSize hh (by rw [hpc]; rfl) ⟨hfits.1, .inl hfits.2⟩ rfl rfl hserver rfl
  | getPlayerLimit r hpc =>
    rw [hpc] at hserver hfits
    exact h.move rfl rfl hserver ⟨hfits, s.keys, rfl⟩
  | playerCount r limit hpc =>
    rw [hpc] at hserver hfits
    exact h.move rfl rfl hserver hfits
  | countConnections r limit hpc hroom =>
    rw [hpc] at hserver hfits
    obtain ⟨hadmissible, keys, rfl⟩ := hfits
    have hhandles : s.accumulator.handles = (r.ensured w.server).packetAccumulator.handles :=
      hserver.accumulator.handles
    refine h.move rfl rfl hserver ⟨hadmissible, hroom.imp_right fun hlt => ⟨keys, ?_⟩⟩
    rwa [← PacketAccumulator.getConnectionCount_congr hhandles]
  | noPacket r hpc hr =>
    rw [hpc] at hserver
    exact absurd ((hserver.mem r.room).2 Request.mem_ensured) hr

/-! The sections in which a call takes effect, and the sections of `createRoom` and
`destroyRoom`. -/

theorem Refines.found (h : s.Refines w) (hh : s.Handling) {handle : ConnectionHdl}
    {identifier : UInt16} (hf : s.relayPc.found = some (handle, identifier)) :
    identifier = w.server.getIdentifier handle :=
  (hh.found handle identifier hf).trans (h.getIdentifier handle).symm

theorem Refines.claimIdentifier (h : s.Refines w) (hh : s.Handling) {handle : ConnectionHdl}
    (hpc : s.relayPc = .claimIdentifier handle) : System.Follows { s with
      server := s.server.claimIdentifier handle
      opened := handle :: s.opened
      connected := handle :: s.connected
      relayPc := .idle
      log := s.log ++ [.opened handle ((s.server.claimIdentifier handle).getIdentifier handle)] }
      w := by
  have hserver := h.server
  rw [hpc] at hserver
  obtain ⟨h1, h2⟩ := hh.fresh handle hpc
  have hcall : relay.next w (.onOpen handle) = some _ :=
    World.next_onOpen.2 ⟨⟨h.opened ▸ h1, h.connected ▸ h2⟩, rfl⟩
  exact ⟨_, .tail .refl hcall, hserver.claimIdentifier, congrArg _ h.opened,
    congrArg _ h.connected, trivial⟩

theorem Refines.eraseMoon (h : s.Refines w) {handle : ConnectionHdl} {identifier : UInt16}
    (hpc : s.relayPc = .eraseMoon handle identifier)
    (hnone : (s.server.eraseMoon identifier).2 = none) : System.Follows { s with
      server := (s.server.eraseMoon identifier).1
      relayPc := .closePlayerCount handle identifier } w := by
  have hserver := h.server
  rw [hpc] at hserver
  obtain ⟨h1, h2⟩ := hserver.eraseMoon identifier
  refine h.move rfl rfl ?_ trivial
  show (s.server.eraseMoon identifier).1.Same ((w.server.eraseMoon identifier).1.destroyIfSome
    (w.server.eraseMoon identifier).2)
  rw [show (w.server.eraseMoon identifier).2 = none from h2.symm.trans hnone]
  exact h1

theorem Refines.eraseHandles (h : s.Refines w) {handle : ConnectionHdl} {identifier : UInt16}
    {room : Hash} (hpc : s.relayPc = .eraseHandles handle identifier room) :
    ((s.withAccumulator (s.accumulator.eraseHandles room)).goto
      (.closePlayerCount handle identifier)).Follows w := by
  have hserver := h.server
  have hfits := h.fits
  rw [hpc] at hserver hfits
  refine h.move rfl rfl ?_ trivial
  show RelayServer.Same _ ((w.server.eraseMoon identifier).1.destroyIfSome
    (w.server.eraseMoon identifier).2)
  rw [hfits.1, RelayServer.destroyIfSome_of_mem]
  · exact hserver.withAccumulator hserver.accumulator.eraseHandles
  · rw [RelayServer.packetAccumulator_eraseMoon]
    exact hfits.2

theorem Refines.releaseIdentifier (h : s.Refines w) (hh : s.Handling) {handle : ConnectionHdl}
    {identifier : UInt16} (hpc : s.relayPc = .releaseIdentifier handle identifier) :
    System.Follows { s with
      server := s.server.releaseIdentifier handle
      connected := s.connected.filter fun c => c ≠ handle
      relayPc := .idle } w := by
  have hserver := h.server
  rw [hpc] at hserver
  obtain rfl := h.found hh (by rw [hpc]; rfl)
  have hc := hh.running handle (by rw [hpc]; rfl)
  have hcall : relay.next w (.onClose handle) = some _ :=
    World.next_onClose.2 ⟨h.connected ▸ hc, rfl⟩
  exact ⟨_, .tail .refl hcall, hserver.releaseIdentifier, h.opened,
    congrArg (List.filter fun c => c ≠ handle) h.connected, trivial⟩

theorem Refines.unknownKey (h : s.Refines w) (hh : s.Handling) {handle : ConnectionHdl}
    {message : List UInt8} {identifier : UInt16}
    (hpc : s.relayPc = .getRoom handle message identifier)
    (hempty : s.keys.getRoom (Hash.ofBytes message) = Hash.empty) :
    ((s.record (.resolved handle message s.keys)).refuse handle).Follows w := by
  have hserver := h.server
  have hfits := h.fits
  rw [hpc] at hserver hfits
  have h0 := h.found hh (by rw [hpc]; rfl) ▸ hh.nonzero handle message identifier hpc
  refine h.message rfl rfl message s.keys s.keys (hh.running _ (by rw [hpc]; rfl)) ?_
    (fun _ => rfl) fun _ => trivial
  rw [RelayServer.onMessage, if_neg h0, if_neg (Nat.not_lt.2 hfits)]
  simp only [if_pos hempty]
  exact hserver

theorem Refines.noRoom (h : s.Refines w) (hh : s.Handling) {r : Request}
    (hpc : s.relayPc = .hasRoom r) (hr : r.room ∉ s.accumulator.packets)
    (hm : r.moonClient = false) : (s.refuse r.handle).Follows w := by
  have hserver := h.server
  have hfits := h.fits
  rw [hpc] at hserver hfits
  refine h.answer hh (by rw [hpc]; rfl) hfits rfl rfl s.keys ?_ (fun _ => rfl) fun _ => trivial
  rw [Request.answer_noRoom hm fun hw => hr ((Request.mem_of_noted hserver).2 hw)]
  exact hserver

theorem Refines.insertHandles (h : s.Refines w) {r : Request} (hpc : s.relayPc = .insertHandles r) :
    ((s.withAccumulator (s.accumulator.insertHandles r.room)).goto (.createRoom r)).Follows w := by
  have hserver := h.server
  have hfits := h.fits
  rw [hpc] at hserver hfits
  refine h.move rfl rfl ?_ hfits.1
  have hr : r.room ∉ (r.noted w.server).packetAccumulator.packets := by
    rw [Request.packets_noted]
    exact hfits.2
  show RelayServer.Same _ ((r.noted w.server).ensureRoom r.room)
  rw [RelayServer.ensureRoom_eq, RelayServer.createRoom, PacketAccumulator.createRoom, if_neg hr]
  exact hserver.withAccumulator hserver.accumulator.insertHandles

theorem Refines.full (h : s.Refines w) (hh : s.Handling) {r : SizedRequest} {limit : ℕ}
    (hpc : s.relayPc = .countConnections r limit) (hm : r.moonClient = false)
    (hfull : limit ≤ s.accumulator.getConnectionCountWithoutConnection r.identifier r.room) :
    (s.refuse r.handle).Follows w := by
  have hserver := h.server
  have hfits := h.fits
  rw [hpc] at hserver hfits
  obtain ⟨hadmissible, keys, rfl⟩ := hfits
  have hhandles : s.accumulator.handles = (r.ensured w.server).packetAccumulator.handles :=
    hserver.accumulator.handles
  rw [PacketAccumulator.getConnectionCount_congr hhandles] at hfull
  refine h.answer hh (by rw [hpc]; rfl) hadmissible.1 rfl rfl keys ?_ (fun _ => rfl)
    fun _ => trivial
  rw [hadmissible.answer_full r.length_le hm hfull]
  exact hserver

/-- A message that is accepted takes effect when its packet is appended: the limit was checked
against some table before. -/
theorem Refines.appendPacket (h : s.Refines w) (hh : s.Handling) {r : SizedRequest}
    (hpc : s.relayPc = .appendPacket r) :
    (((s.withAccumulator (s.accumulator.appendPacket r.room r.packet r.handle r.message)).record
      (.accepted r.room (s.newPacket r) (s.accumulator.registered r.room))).goto
      (.registerHandle r)).Follows w := by
  have hserver := h.server
  have hfits := h.fits
  rw [hpc] at hserver hfits
  obtain ⟨hadmissible, hroom⟩ := hfits
  obtain ⟨keys, hkeys⟩ : ∃ keys : KeyManager, r.moonClient = true ∨
      (r.ensured w.server).packetAccumulator.getConnectionCountWithoutConnection r.identifier
        r.room < keys.getPlayerLimit r.room := by
    rcases hroom with hm | ⟨keys, hlt⟩
    · exact ⟨s.keys, .inl hm⟩
    · exact ⟨keys, .inr hlt⟩
  refine h.answer hh (by rw [hpc]; rfl) hadmissible.1 rfl rfl keys ?_ (fun _ => rfl)
    fun _ => trivial
  rw [hadmissible.answer_accepted r.length_le hkeys]
  show RelayServer.Same _ { r.ensured w.server with
    packetAccumulator := (r.ensured w.server).packetAccumulator.addPacket r.room _ _ _ }
  rw [PacketAccumulator.addPacket, if_pos Request.mem_ensured]
  exact hserver.withAccumulator hserver.accumulator.appendPacket.registerHandle

theorem RelayStep.follows (h : s.Refines w) (hh : s.Handling) (hst : s.RelayStep s') :
    s'.Follows w := by
  have hserver := h.server
  have hfits := h.fits
  cases hst with
  | goto pc hg => exact hg.follows h hh
  | claimIdentifier handle hpc => exact h.claimIdentifier hh hpc
  | eraseMoon handle identifier hpc hnone => exact h.eraseMoon hpc hnone
  | eraseLastMoon handle identifier room hpc hsome =>
    rw [hpc] at hserver
    obtain ⟨h1, h2⟩ := hserver.eraseMoon identifier
    exact h.move rfl rfl h1 (h2.symm.trans hsome)
  | erasePackets handle identifier room hpc hr =>
    rw [hpc] at hserver hfits
    refine h.move rfl rfl (hserver.withAccumulator hserver.accumulator.erasePackets) ⟨hfits, ?_⟩
    rw [← RelayServer.packetAccumulator_eraseMoon (i := identifier)]
    exact (hserver.mem room).1 hr
  | eraseHandles handle identifier room hpc => exact h.eraseHandles hpc
  | removeConnection handle identifier hpc =>
    rw [hpc] at hserver
    exact h.move rfl rfl hserver.removeConnection trivial
  | releaseIdentifier handle identifier hpc => exact h.releaseIdentifier hh hpc
  | tooShort handle message hpc h0 hlen =>
    rw [hpc] at hserver
    refine h.message rfl rfl message s.keys s.keys (hh.running _ (by rw [hpc]; rfl)) ?_
      (fun _ => rfl) fun _ => trivial
    rw [RelayServer.onMessage, if_neg ((h.getIdentifier handle).trans_ne h0), if_pos hlen]
    exact hserver
  | unknownKey handle message identifier hpc hempty => exact h.unknownKey hh hpc hempty
  | getRoom handle message identifier r pc hpc hr hne hcase =>
    rw [hpc] at hserver hfits
    have hs : r.Sound := ⟨by rw [hr]; exact hfits, hne⟩
    rcases hcase with ⟨rfl, hm⟩ | ⟨rfl, hm⟩
    · exact h.move rfl rfl hserver ⟨hs, hm⟩
    · refine h.move rfl rfl ?_ hs
      show s.server.Same (w.server.addMoonIf r.moonClient r.identifier r.room)
      rw [hm]
      exact hserver
  | addMoon r hpc =>
    rw [hpc] at hserver hfits
    refine h.move rfl rfl ?_ hfits.1
    show (s.server.addMoon r.identifier r.room).Same
      (w.server.addMoonIf r.moonClient r.identifier r.room)
    rw [hfits.2]
    exact RelayServer.Same.addMoon hserver
  | noRoom r hpc hr hm => exact h.noRoom hh hpc hr hm
  | insertPackets r hpc hr =>
    rw [hpc] at hserver hfits
    exact h.move rfl rfl (hserver.withAccumulator hserver.accumulator.insertPackets)
      ⟨hfits, fun hw => hr ((Request.mem_of_noted hserver).2 hw)⟩
  | insertHandles r hpc => exact h.insertHandles hpc
  | endJoin r hpc | join r _ _ _ hpc =>
    rw [hpc] at hserver hfits
    exact h.move rfl rfl hserver hfits
  | startThread r hpc =>
    rw [hpc] at hserver hfits
    exact h.checkSize hh (by rw [hpc]; rfl) ⟨hfits.1, .inl hfits.2⟩ rfl rfl hserver rfl
  | full r limit hpc hm hfull => exact h.full hh hpc hm hfull
  | appendPacket r hpc => exact h.appendPacket hh hpc
  | registerHandle r hpc =>
    rw [hpc] at hserver
    exact h.move rfl rfl hserver trivial

theorem CallStep.follows (h : s.Refines w) (hst : s.CallStep s') : s'.Follows w := by
  have hserver := h.server
  cases hst with
  | onOpen handle hpc | onMessage handle message hpc | onClose handle hpc =>
    rw [hpc] at hserver
    exact h.move rfl rfl hserver trivial
  | endSession | refreshKeys => exact h.move rfl rfl h.server h.fits

theorem RoomStep.server {t : ℕ} (hst : s.RoomStep t s') : s'.server = s.server ∨
    s'.server = s.server.takePackets (s.threads t).room := by
  cases hst with
  | noPackets | getPackets => exact .inr rfl
  | _ => exact .inl rfl

theorem RoomStep.follows (h : s.Refines w) {t : ℕ} (hst : s.RoomStep t s') : s'.Follows w := by
  obtain ⟨hconnected, hopened, -⟩ := hst.connections
  obtain ⟨-, -, -, hpc, -⟩ := hst.threads
  rcases hst.server with hserver | hserver
  · exact h.move hopened hconnected (by rw [hpc, hserver]; exact h.server) (hpc ▸ h.fits)
  · have hcall : relay.next w (.getPackets (s.threads t).room) = some _ :=
      World.next_getPackets.2 rfl
    refine ⟨_, .tail .refl hcall, ?_, hopened.trans h.opened, hconnected.trans h.connected,
      hpc ▸ h.fits.takePackets _⟩
    rw [hpc, hserver, RelayPc.rest_takePackets]
    exact h.server.takePackets.trans (RelayPc.takePackets_done _ _ _)

theorem Refines.withOwner (h : s.Refines w) (owner : Locks Mutex ThreadId) :
    Refines { s with owner := owner } w := ⟨h.server, h.opened, h.connected, h.fits⟩

/-- Every step is matched by a run of `relay`. -/
theorem follows_of_next {l : Label} (hs : (relaySystem keys).Reachable s) (h : s.Refines w)
    (hst : (relaySystem keys).next s l = some s') : s'.Follows w := by
  cases next_step hst with
  | call l hcall => exact hcall.follows h
  | acquire l t m => exact (h.withOwner _).follows
  | relay hrelay =>
    obtain ⟨w', hw, h'⟩ := hrelay.follows h (handling_of_reachable hs)
    exact ⟨w', hw, h'.withOwner _⟩
  | room t hroom =>
    obtain ⟨w', hw, h'⟩ := hroom.follows h
    exact ⟨w', hw, h'.withOwner _⟩
  | worker k hworker =>
    obtain ⟨hconnected, hopened, -⟩ := hworker.connections
    obtain ⟨-, -, -, hpc, -, -, hserver⟩ := hworker.threads
    exact h.move hopened hconnected (by rw [hpc, hserver]; exact h.server) (hpc ▸ h.fits)

theorem refines_of_reachable (h : (relaySystem keys).Reachable s) :
    ∃ w, relay.Reachable w ∧ s.Refines w :=
  h.simulated (R := Refines) ⟨.refl _, rfl, rfl, trivial⟩
    fun _ _ _ _ hu _ hR hst => follows_of_next hu hR hst

end System

variable {keys : KeyManager} {s : System}

/-- **The threads refine the handlers.**  Between two handler calls the tables of the threaded
machine are those of a run in which every handler is one step, up to the order of the entries of
`m_packets`, and the same connections were opened and are open. -/
theorem relay_of_idle (h : (relaySystem keys).Reachable s) (hidle : s.relayPc = .idle) :
    ∃ w, relay.Reachable w ∧ s.server.Same w.server ∧ s.opened = w.opened ∧
      s.connected = w.connected := by
  obtain ⟨w, hw, hR⟩ := System.refines_of_reachable h
  have hserver := hR.server
  rw [hidle] at hserver
  exact ⟨w, hw, hserver, hR.opened, hR.connected⟩

/-- Between two handler calls the tables of the threaded machine fit together. -/
theorem invariant_of_idle (h : (relaySystem keys).Reachable s) (hidle : s.relayPc = .idle) :
    s.server.Invariant s.connected := by
  obtain ⟨w, hw, hserver, -, hconnected⟩ := relay_of_idle h hidle
  exact hconnected ▸ hserver.invariant (invariant_of_reachable hw)

end MoonJamRelay
