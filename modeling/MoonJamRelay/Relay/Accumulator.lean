import MoonJamRelay.Data.UnorderedMap
import MoonJamRelay.Packet.Basic

/-!
# The packet accumulator

For every room the accumulator holds the packets accepted since the last tick (`m_packets`) and the
connections that have sent to the room (`m_handles`), under two mutexes.  An operation that locks
both, one after the other, is the composition of one function per critical section:

* `createRoom` is `insertPackets` and `insertHandles`; `destroyRoom` is `erasePackets` and
  `eraseHandles`; `addPacket` is `appendPacket` and `registerHandle`.
* `removeConnection`, `getConnections`, `getConnectionCountWithoutConnection` lock `m_handles`;
  `hasRoom` and `getPackets` lock `m_packets`.

`accepted` counts the packets accepted so far; no code reads it, it only numbers the packets.
-/

namespace MoonJamRelay

/-- The tables of the accumulator. -/
structure PacketAccumulator where
  /-- `m_packets`. -/
  packets : UnorderedMap Hash (List Packet)
  /-- `m_handles`. -/
  handles : UnorderedMap Hash (List ReceivedConnection)
  /-- The number of packets accepted so far. -/
  accepted : ℕ

namespace PacketAccumulator

/-- The tables when the program starts. -/
def init : PacketAccumulator := ⟨∅, ∅, 0⟩

variable (a : PacketAccumulator) (room : Hash)

/-- The room exists. -/
def hasRoom : Bool := decide (room ∈ a.packets)

/-- The packets waiting in a room, none when it does not exist. -/
def pending : List Packet := (a.packets.lookup room).getD []

/-- The connections registered in a room, none when it does not exist. -/
def registered : List ReceivedConnection := (a.handles.lookup room).getD []

/-- `find_if` finds an entry with the identifier. -/
def contains (identifier : UInt16) (connections : List ReceivedConnection) : Bool :=
  connections.any fun entry => entry.identifier = identifier

/-- First section of `addPacket`: append the packet if the room exists. -/
def appendPacket (packet : ReceivedPacket) (handle : ConnectionHdl) (message : List UInt8) :
    PacketAccumulator :=
  if room ∈ a.packets then
    { a with
      packets := a.packets.insert room (a.pending room ++ [⟨packet, handle, message, a.accepted⟩])
      accepted := a.accepted + 1 }
  else a

/-- Second section of `addPacket`: register the sender if it is not registered. -/
def registerHandle (identifier : UInt16) (handle : ConnectionHdl) : PacketAccumulator :=
  { a with
    handles := a.handles.insert room
      (if contains identifier (a.registered room) then a.registered room
       else a.registered room ++ [⟨identifier, handle⟩]) }

/-- `addPacket`: nothing happens when the room does not exist. -/
def addPacket (packet : ReceivedPacket) (handle : ConnectionHdl) (message : List UInt8) :
    PacketAccumulator :=
  if room ∈ a.packets then
    (a.appendPacket room packet handle message).registerHandle room packet.identifier handle
  else a

/-- `removeConnection`: erase the entry of the identifier from every room. -/
def removeConnection (identifier : UInt16) : PacketAccumulator :=
  { a with
    handles := UnorderedMap.mapValues
      (fun connections => connections.eraseP fun entry => entry.identifier = identifier)
      a.handles }

/-- First section of `createRoom`. -/
def insertPackets : PacketAccumulator := { a with packets := a.packets.insert room [] }

/-- Second section of `createRoom`. -/
def insertHandles : PacketAccumulator := { a with handles := a.handles.insert room [] }

/-- `createRoom`, without the call that starts the thread of the room. -/
def createRoom : PacketAccumulator :=
  if room ∈ a.packets then a else (a.insertPackets room).insertHandles room

/-- First section of `destroyRoom`. -/
def erasePackets : PacketAccumulator := { a with packets := a.packets.erase room }

/-- Second section of `destroyRoom`. -/
def eraseHandles : PacketAccumulator := { a with handles := a.handles.erase room }

/-- `destroyRoom`. -/
def destroyRoom : PacketAccumulator :=
  if room ∈ a.packets then (a.erasePackets room).eraseHandles room else a

/-- `getConnections`: a copy of the registered connections. -/
def getConnections : List ReceivedConnection :=
  if room ∈ a.handles then a.registered room else []

/-- `getConnectionCountWithoutConnection`. -/
def getConnectionCountWithoutConnection (identifier : UInt16) (room : Hash) : ℕ :=
  if room ∈ a.handles then
    if contains identifier (a.registered room) then (a.registered room).length - 1
    else (a.registered room).length
  else 0

/-- `getPackets`: the waiting packets are swapped with the cleared vector of the caller. -/
def getPackets : List Packet × PacketAccumulator :=
  if room ∈ a.packets then
    (a.pending room, { a with packets := a.packets.insert room [] })
  else ([], a)

variable {a room}

/-! ### What a room holds after an operation -/

theorem contains_iff {identifier : UInt16} {connections : List ReceivedConnection} :
    contains identifier connections = true ↔
      ∃ entry ∈ connections, entry.identifier = identifier := by
  simp [contains]

@[simp] theorem hasRoom_iff : a.hasRoom room = true ↔ room ∈ a.packets := by simp [hasRoom]

theorem registered_of_lookup {l : List ReceivedConnection} (h : a.handles.lookup room = some l) :
    a.registered room = l := by
  simp [registered, h]

theorem mem_handles_of_registered {e : ReceivedConnection} (h : e ∈ a.registered room) :
    room ∈ a.handles := by
  rw [← AList.lookup_isSome]
  cases hl : a.handles.lookup room with
  | none => simp [registered, hl] at h
  | some l => rfl

@[simp] theorem handles_appendPacket (p : ReceivedPacket) (h : ConnectionHdl) (m : List UInt8) :
    (a.appendPacket room p h m).handles = a.handles := by
  unfold appendPacket; split_ifs <;> rfl

theorem mem_appendPacket (p : ReceivedPacket) (h : ConnectionHdl) (m : List UInt8) (r : Hash) :
    r ∈ (a.appendPacket room p h m).packets ↔ r ∈ a.packets := by
  unfold appendPacket
  split_ifs with hr
  · exact UnorderedMap.mem_insert_of_mem hr
  · rfl

theorem pending_appendPacket (hr : room ∈ a.packets) (p : ReceivedPacket) (h : ConnectionHdl)
    (m : List UInt8) (r : Hash) : (a.appendPacket room p h m).pending r =
      if r = room then a.pending room ++ [⟨p, h, m, a.accepted⟩] else a.pending r := by
  rw [appendPacket, if_pos hr]
  simp only [pending, UnorderedMap.lookup_insert_eq]
  split_ifs <;> rfl

theorem pending_of_not_mem (hr : room ∉ a.packets) : a.pending room = [] := by
  rw [pending, AList.lookup_eq_none.2 hr]
  rfl

theorem pending_insertPackets (hr : room ∉ a.packets) (r : Hash) :
    (a.insertPackets room).pending r = a.pending r := by
  simp only [pending, insertPackets, UnorderedMap.lookup_insert_eq]
  split_ifs with h
  · rw [h]
    exact (pending_of_not_mem hr).symm
  · rfl

theorem pending_erasePackets (r : Hash) :
    (a.erasePackets room).pending r = if r = room then [] else a.pending r := by
  simp only [pending, erasePackets, UnorderedMap.lookup_erase_eq]
  split_ifs <;> rfl

theorem getPackets_fst : (a.getPackets room).1 = a.pending room := by
  unfold getPackets
  split_ifs with h
  · rfl
  · exact (pending_of_not_mem h).symm

theorem pending_getPackets (r : Hash) :
    (a.getPackets room).2.pending r = if r = room then [] else a.pending r := by
  unfold getPackets
  split_ifs with h hr hr
  · simp [pending, UnorderedMap.lookup_insert_eq, hr]
  · simp [pending, hr]
  · rw [hr]
    exact pending_of_not_mem h
  · rfl

theorem accepted_getPackets : (a.getPackets room).2.accepted = a.accepted := by
  unfold getPackets
  split_ifs <;> rfl

theorem registered_registerHandle (i : UInt16) (h : ConnectionHdl) (r : Hash) :
    (a.registerHandle room i h).registered r =
      if r = room ∧ ¬ contains i (a.registered room) then a.registered room ++ [⟨i, h⟩]
      else a.registered r := by
  simp only [registered, registerHandle, UnorderedMap.lookup_insert_eq]
  by_cases hr : r = room
  · subst hr
    by_cases hc : contains i ((a.handles.lookup r).getD []) <;> simp [hc]
  · simp [hr]

theorem mem_registered_registerHandle {i : UInt16} {h : ConnectionHdl} {r : Hash}
    {e : ReceivedConnection} (he : e ∈ (a.registerHandle room i h).registered r) :
    e ∈ a.registered r ∨ r = room ∧ e = ⟨i, h⟩ := by
  rw [registered_registerHandle] at he
  split_ifs at he with hnew
  · rw [List.mem_append, List.mem_singleton] at he
    exact he.imp (fun he => hnew.1 ▸ he) fun he => ⟨hnew.1, he⟩
  · exact .inl he

/-- A connection is not registered twice under one identifier. -/
theorem nodup_registerHandle (hnd : ∀ r, ((a.registered r).map ReceivedConnection.identifier).Nodup)
    (i : UInt16) (h : ConnectionHdl) (r : Hash) :
    (((a.registerHandle room i h).registered r).map ReceivedConnection.identifier).Nodup := by
  rw [registered_registerHandle]
  split_ifs with hnew
  · -- the identifier was not in the list
    rw [List.map_append, List.nodup_append]
    refine ⟨hnd room, List.nodup_singleton _, ?_⟩
    rintro j hj j' hj' rfl
    obtain ⟨e, he, rfl⟩ := List.mem_map.1 hj
    exact hnew.2 (contains_iff.2 ⟨e, he, List.mem_singleton.1 hj'⟩)
  · exact hnd r

theorem mem_handles_registerHandle (i : UInt16) (h : ConnectionHdl) (r : Hash) :
    r ∈ (a.registerHandle room i h).handles ↔ r = room ∨ r ∈ a.handles := by
  simp [registerHandle, AList.mem_insert]

@[simp] theorem packets_removeConnection (i : UInt16) :
    (a.removeConnection i).packets = a.packets := rfl

theorem registered_removeConnection (i : UInt16) (r : Hash) :
    (a.removeConnection i).registered r =
      (a.registered r).eraseP fun entry => entry.identifier = i := by
  simp only [registered, removeConnection, UnorderedMap.lookup_mapValues]
  cases a.handles.lookup r <;> simp

theorem registered_insertHandles (r : Hash) :
    (a.insertHandles room).registered r = if r = room then [] else a.registered r := by
  simp only [registered, insertHandles, UnorderedMap.lookup_insert_eq]
  split_ifs <;> rfl

theorem registered_eraseHandles (r : Hash) :
    (a.eraseHandles room).registered r = if r = room then [] else a.registered r := by
  simp only [registered, eraseHandles, UnorderedMap.lookup_erase_eq]
  split_ifs <;> rfl

theorem mem_eraseP_identifier {l : List ReceivedConnection}
    (hl : (l.map ReceivedConnection.identifier).Nodup) {i : UInt16} {e : ReceivedConnection} :
    e ∈ l.eraseP (fun entry => entry.identifier = i) ↔ e ∈ l ∧ e.identifier ≠ i := by
  induction l with
  | nil => simp
  | cons x l ih =>
    rw [List.map_cons, List.nodup_cons] at hl
    by_cases hx : x.identifier = i
    · have hrest : ∀ y ∈ l, y.identifier ≠ i := fun y hy he =>
        hl.1 (List.mem_map.2 ⟨y, hy, he.trans hx.symm⟩)
      rw [List.eraseP_cons_of_pos (by simpa using hx)]
      constructor
      · exact fun he => ⟨List.mem_cons_of_mem _ he, hrest e he⟩
      · rintro ⟨he, hne⟩
        rcases List.mem_cons.1 he with rfl | he
        · exact absurd hx hne
        · exact he
    · rw [List.eraseP_cons_of_neg (by simpa using hx), List.mem_cons, List.mem_cons, ih hl.2]
      constructor
      · rintro (rfl | ⟨he, hne⟩)
        · exact ⟨.inl rfl, hx⟩
        · exact ⟨.inr he, hne⟩
      · rintro ⟨rfl | he, hne⟩
        · exact .inl rfl
        · exact .inr ⟨he, hne⟩

theorem mem_handles_removeConnection (i : UInt16) (r : Hash) :
    r ∈ (a.removeConnection i).handles ↔ r ∈ a.handles :=
  UnorderedMap.mem_mapValues _ _ _

theorem removeConnection_eq_self {i : UInt16}
    (h : ∀ r, ∀ e ∈ a.registered r, e.identifier ≠ i) : a.removeConnection i = a := by
  have hself : UnorderedMap.mapValues (fun connections : List ReceivedConnection =>
      connections.eraseP fun entry => entry.identifier = i) a.handles = a.handles := by
    refine UnorderedMap.mapValues_eq_self fun r l hl => List.eraseP_of_forall_not fun e he => ?_
    have := h r e (by rwa [registered_of_lookup hl])
    simpa using this
  simp [removeConnection, hself]

theorem mem_packets_createRoom (r : Hash) :
    r ∈ (a.createRoom room).packets ↔ r = room ∨ r ∈ a.packets := by
  unfold createRoom
  split_ifs with h
  · exact ⟨Or.inr, fun h' => h'.elim (fun e => e ▸ h) id⟩
  · simp [insertPackets, insertHandles, AList.mem_insert]

theorem mem_handles_createRoom (hsame : ∀ r, r ∈ a.packets ↔ r ∈ a.handles) (r : Hash) :
    r ∈ (a.createRoom room).handles ↔ r = room ∨ r ∈ a.handles := by
  unfold createRoom
  split_ifs with h
  · exact ⟨Or.inr, fun h' => h'.elim (fun e => e ▸ (hsame room).1 h) id⟩
  · simp [insertPackets, insertHandles, AList.mem_insert]

theorem registered_createRoom (hsame : ∀ r, r ∈ a.packets ↔ r ∈ a.handles) (r : Hash) :
    (a.createRoom room).registered r = a.registered r := by
  unfold createRoom
  split_ifs with h
  · rfl
  · simp only [registered, insertHandles, insertPackets, UnorderedMap.lookup_insert_eq]
    split_ifs with hr
    · subst hr
      have hn : a.handles.lookup r = none := AList.lookup_eq_none.2 fun h' => h ((hsame r).2 h')
      simp [hn]
    · rfl

theorem mem_packets_destroyRoom (r : Hash) :
    r ∈ (a.destroyRoom room).packets ↔ r ≠ room ∧ r ∈ a.packets := by
  unfold destroyRoom
  split_ifs with h
  · simp [erasePackets, eraseHandles, AList.mem_erase]
  · exact ⟨fun h' => ⟨fun e => h (e ▸ h'), h'⟩, And.right⟩

theorem mem_handles_destroyRoom (hsame : ∀ r, r ∈ a.packets ↔ r ∈ a.handles) (r : Hash) :
    r ∈ (a.destroyRoom room).handles ↔ r ≠ room ∧ r ∈ a.handles := by
  unfold destroyRoom
  split_ifs with h
  · simp [erasePackets, eraseHandles, AList.mem_erase]
  · exact ⟨fun h' => ⟨fun e => h ((hsame room).2 (e ▸ h')), h'⟩, And.right⟩

theorem registered_destroyRoom (hsame : ∀ r, r ∈ a.packets ↔ r ∈ a.handles) (r : Hash) :
    (a.destroyRoom room).registered r = if r = room then [] else a.registered r := by
  unfold destroyRoom
  split_ifs with h hr hr
  · subst hr; simp [registered, eraseHandles, erasePackets]
  · simp [registered, eraseHandles, erasePackets, hr]
  · subst hr
    have hn : a.handles.lookup r = none := AList.lookup_eq_none.2 fun h' => h ((hsame r).2 h')
    simp [registered, hn]
  · rfl

theorem mem_packets_addPacket (p : ReceivedPacket) (h : ConnectionHdl) (m : List UInt8) (r : Hash) :
    r ∈ (a.addPacket room p h m).packets ↔ r ∈ a.packets := by
  unfold addPacket
  split_ifs
  · exact mem_appendPacket p h m r
  · rfl

theorem mem_handles_addPacket (hsame : ∀ r, r ∈ a.packets ↔ r ∈ a.handles) (p : ReceivedPacket)
    (h : ConnectionHdl) (m : List UInt8) (r : Hash) :
    r ∈ (a.addPacket room p h m).handles ↔ r ∈ a.handles := by
  unfold addPacket
  split_ifs with hr
  · rw [mem_handles_registerHandle, handles_appendPacket]
    exact ⟨fun h' => h'.elim (fun e => e ▸ (hsame room).1 hr) id, Or.inr⟩
  · rfl

theorem registered_appendPacket (p : ReceivedPacket) (h : ConnectionHdl) (m : List UInt8)
    (r : Hash) : (a.appendPacket room p h m).registered r = a.registered r := by
  rw [registered, handles_appendPacket, registered]

theorem registered_addPacket (hr : room ∈ a.packets) (p : ReceivedPacket) (h : ConnectionHdl)
    (m : List UInt8) (r : Hash) : (a.addPacket room p h m).registered r =
      (a.registerHandle room p.identifier h).registered r := by
  rw [addPacket, if_pos hr, registered_registerHandle, registered_registerHandle,
    registered_appendPacket, registered_appendPacket]

theorem mem_packets_getPackets (r : Hash) :
    r ∈ (a.getPackets room).2.packets ↔ r ∈ a.packets := by
  unfold getPackets
  split_ifs with h
  · exact UnorderedMap.mem_insert_of_mem h
  · rfl

@[simp] theorem handles_getPackets : (a.getPackets room).2.handles = a.handles := by
  unfold getPackets; split_ifs <;> rfl

end PacketAccumulator

end MoonJamRelay
