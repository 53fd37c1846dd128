import MoonJamRelay.Relay.Accumulator
import Mathlib.Order.Interval.Finset.Nat

/-!
# The relay server

`RelayServer` is the state of the relay thread: the identifiers of the open connections, the rooms
of the moon clients, and the packet accumulator.  The handlers `onOpen`, `onClose` and `onMessage`
run one at a time.  Here each of them is one function from the state before the call to the state
after it; `MoonJamRelay.Threads` splits them at the locks.

* `claimIdentifier`, `getIdentifier`, `releaseIdentifier` : the 16-bit identifiers.
* `onMessage` answers with a `Reply`; `Reply.closeReason` is the text a refused client is closed
  with.  The key table can change between the two times `onMessage` reads it, so it is passed twice.
* `onMessage_result` : all ways `onMessage` can end, with their conditions (`MessageResult`).
* `claimLoop_ne_zero`, `claimLoop_eq_zero_iff` : what the claiming loop finds.
-/

namespace MoonJamRelay

/-- `UINT16_MAX`. -/
def uint16Max : ℕ := 65535

/-- The state of the relay thread. -/
structure RelayServer where
  /-- `m_handlePointerToIdentifierMap`, indexed by the address of the connection. -/
  handlePointerToIdentifierMap : UnorderedMap ℕ UInt16
  /-- `m_reservedIdentifiers`. -/
  reservedIdentifiers : List UInt16
  /-- `m_moonIdentifierToRoomMap`. -/
  moonIdentifierToRoomMap : UnorderedMap UInt16 Hash
  /-- `m_packetAccumulator`. -/
  packetAccumulator : PacketAccumulator

/-- How `onMessage` ends. -/
inductive Reply where
  /-- The connection has no identifier. -/
  | noIdentifier
  /-- The message is shorter than a key. -/
  | tooShort
  /-- The key is not in the table. -/
  | unknownKey
  /-- A player sent to a room that does not exist. -/
  | noRoom (room : Hash)
  /-- The message is too long. -/
  | oversized (room : Hash) (moonClient : Bool)
  /-- The room has no place for the player. -/
  | full (room : Hash)
  /-- The message is handed to `addPacket`. -/
  | accepted (room : Hash) (moonClient : Bool)
  deriving DecidableEq

/-- The reason a client is closed with (the status is `internal_endpoint_error`). -/
def Reply.closeReason : Reply → Option String
  | .tooShort => some "You must include a room specifier."
  | .unknownKey => some "Your room specifier cannot be empty."
  | .noRoom _ => some "Room not available. Moonmoon must connect first."
  | .full _ => some "Server is full. Please try again later."
  | .noIdentifier | .oversized .. | .accepted .. => none

namespace RelayServer

/-- The state when the program starts. -/
def init : RelayServer := ⟨∅, [], ∅, .init⟩

variable (s : RelayServer)

/-! ### Identifiers -/

/-- The identifier of a connection, `0` when it has none. -/
def getIdentifier (handle : ConnectionHdl) : UInt16 :=
  (s.handlePointerToIdentifierMap.lookup handle.pointer).getD 0

/-- The candidate after the iterations `i = 1, …, n` of the claiming loop: every free `i` replaces
the candidate. -/
def claimLoop (reserved : List UInt16) : ℕ → UInt16
  | 0 => 0
  | n + 1 =>
    if reserved.any fun r => r.toNat = n + 1 then claimLoop reserved n else UInt16.ofNat (n + 1)

/-- `claimIdentifier`. -/
def claimIdentifier (handle : ConnectionHdl) : RelayServer :=
  let identifier := claimLoop s.reservedIdentifiers (uint16Max - 1)
  if identifier = 0 then s
  else { s with
    reservedIdentifiers := s.reservedIdentifiers ++ [identifier]
    handlePointerToIdentifierMap :=
      s.handlePointerToIdentifierMap.insert handle.pointer identifier }

/-- `releaseIdentifier`. -/
def releaseIdentifier (handle : ConnectionHdl) : RelayServer :=
  match s.handlePointerToIdentifierMap.lookup handle.pointer with
  | none => s
  | some identifier => { s with
    handlePointerToIdentifierMap := s.handlePointerToIdentifierMap.erase handle.pointer
    reservedIdentifiers := s.reservedIdentifiers.filter fun r => r ≠ identifier }

/-! ### The operations of the accumulator -/

/-- The room exists. -/
def hasRoom (room : Hash) : Bool := s.packetAccumulator.hasRoom room

/-- Note that the connection with this identifier is a moon client of the room. -/
def addMoon (identifier : UInt16) (room : Hash) : RelayServer :=
  { s with moonIdentifierToRoomMap := s.moonIdentifierToRoomMap.insert identifier room }

/-- Forget the moon client with this identifier.  The second component is its room, when no other
moon client of the room is left. -/
def eraseMoon (identifier : UInt16) : RelayServer × Option Hash :=
  match s.moonIdentifierToRoomMap.lookup identifier with
  | none => (s, none)
  | some room =>
    let moons := s.moonIdentifierToRoomMap.erase identifier
    ({ s with moonIdentifierToRoomMap := moons },
      if UnorderedMap.anyValue moons fun otherRoom => otherRoom = room then none else some room)

/-- `createRoom` of the accumulator. -/
def createRoom (room : Hash) : RelayServer :=
  { s with packetAccumulator := s.packetAccumulator.createRoom room }

/-- `destroyRoom` of the accumulator. -/
def destroyRoom (room : Hash) : RelayServer :=
  { s with packetAccumulator := s.packetAccumulator.destroyRoom room }

/-- `removeConnection` of the accumulator. -/
def removeConnection (identifier : UInt16) : RelayServer :=
  { s with packetAccumulator := s.packetAccumulator.removeConnection identifier }

/-- `addPacket` of the accumulator. -/
def addPacket (room : Hash) (packet : ReceivedPacket) (handle : ConnectionHdl)
    (message : List UInt8) : RelayServer :=
  { s with packetAccumulator := s.packetAccumulator.addPacket room packet handle message }

/-- `getPackets` of the accumulator, as seen from the relay thread. -/
def takePackets (room : Hash) : RelayServer :=
  { s with packetAccumulator := (s.packetAccumulator.getPackets room).2 }

/-! ### The handlers -/

/-- `onOpen`. -/
def onOpen (handle : ConnectionHdl) : RelayServer := s.claimIdentifier handle

/-- Destroy the room, if there is one to destroy. -/
def destroyIfSome (room : Option Hash) : RelayServer := room.elim s s.destroyRoom

/-- `onClose`, with the room it destroys. -/
def onClose (handle : ConnectionHdl) : RelayServer × Option Hash :=
  let identifier := s.getIdentifier handle
  let erased := s.eraseMoon identifier
  (((erased.1.destroyIfSome erased.2).removeConnection identifier).releaseIdentifier handle,
    erased.2)

/-- The state after a moon client is noted. -/
def addMoonIf (moonClient : Bool) (identifier : UInt16) (room : Hash) : RelayServer :=
  if moonClient then s.addMoon identifier room else s

/-- The state after a room that does not exist is created. -/
def ensureRoom (room : Hash) : RelayServer := if s.hasRoom room then s else s.createRoom room

/-- `onMessage`.  `atRoom` and `atLimit` are the key tables that `getRoom` and `getPlayerLimit`
find under the key mutex. -/
def onMessage (atRoom atLimit : KeyManager) (handle : ConnectionHdl) (message : List UInt8) :
    RelayServer × Reply :=
  let identifier := s.getIdentifier handle
  if identifier = 0 then (s, .noIdentifier)
  else if message.length < hashLength then (s, .tooShort)
  else
    let hash := Hash.ofBytes message
    let room := atRoom.getRoom hash
    if room = Hash.empty then (s, .unknownKey)
    else
      let moonClient := decide (room = hash)
      let s := s.addMoonIf moonClient identifier room
      if ¬ s.hasRoom room ∧ ¬ moonClient then (s, .noRoom room)
      else
        let s := s.ensureRoom room
        if h : message.length > hashLength + maxPacketSize then (s, .oversized room moonClient)
        else
          let maxPlayerCount := atLimit.getPlayerLimit room
          let currentConnectionCount :=
            s.packetAccumulator.getConnectionCountWithoutConnection identifier room
          if ¬ moonClient ∧ currentConnectionCount ≥ maxPlayerCount then (s, .full room)
          else
            (s.addPacket room (receivedPacket identifier message (Nat.le_of_not_gt h)) handle
              message, .accepted room moonClient)

/-! ### The ways a message can end -/

/-- The state in which the size of a moon message is checked: the client is noted, and its room
exists. -/
def afterMoon (identifier : UInt16) (room : Hash) : RelayServer :=
  (s.addMoon identifier room).ensureRoom room

/-- The ways `onMessage` can end: the state after the call, and the reply. -/
inductive MessageResult (atRoom atLimit : KeyManager) (handle : ConnectionHdl)
    (message : List UInt8) : RelayServer → Reply → Prop
  | noIdentifier : s.getIdentifier handle = 0 →
      MessageResult atRoom atLimit handle message s .noIdentifier
  | tooShort : s.getIdentifier handle ≠ 0 → message.length < hashLength →
      MessageResult atRoom atLimit handle message s .tooShort
  | unknownKey : s.getIdentifier handle ≠ 0 → hashLength ≤ message.length →
      atRoom.getRoom (Hash.ofBytes message) = Hash.empty →
      MessageResult atRoom atLimit handle message s .unknownKey
  | noRoom (room : Hash) : s.getIdentifier handle ≠ 0 → hashLength ≤ message.length →
      atRoom.getRoom (Hash.ofBytes message) = room → room ≠ Hash.empty →
      room ≠ Hash.ofBytes message → room ∉ s.packetAccumulator.packets →
      MessageResult atRoom atLimit handle message s (.noRoom room)
  | oversizedMoon (room : Hash) : s.getIdentifier handle ≠ 0 → hashLength ≤ message.length →
      atRoom.getRoom (Hash.ofBytes message) = room → room ≠ Hash.empty →
      room = Hash.ofBytes message → hashLength + maxPacketSize < message.length →
      MessageResult atRoom atLimit handle message (s.afterMoon (s.getIdentifier handle) room)
        (.oversized room true)
  | oversizedPlayer (room : Hash) : s.getIdentifier handle ≠ 0 → hashLength ≤ message.length →
      atRoom.getRoom (Hash.ofBytes message) = room → room ≠ Hash.empty →
      room ≠ Hash.ofBytes message → room ∈ s.packetAccumulator.packets →
      hashLength + maxPacketSize < message.length →
      MessageResult atRoom atLimit handle message s (.oversized room false)
  | full (room : Hash) : s.getIdentifier handle ≠ 0 → hashLength ≤ message.length →
      atRoom.getRoom (Hash.ofBytes message) = room → room ≠ Hash.empty →
      room ≠ Hash.ofBytes message → room ∈ s.packetAccumulator.packets →
      message.length ≤ hashLength + maxPacketSize →
      atLimit.getPlayerLimit room ≤ s.packetAccumulator.getConnectionCountWithoutConnection
        (s.getIdentifier handle) room →
      MessageResult atRoom atLimit handle message s (.full room)
  | acceptedMoon (room : Hash) : s.getIdentifier handle ≠ 0 → hashLength ≤ message.length →
      atRoom.getRoom (Hash.ofBytes message) = room → room ≠ Hash.empty →
      room = Hash.ofBytes message → (h : message.length ≤ hashLength + maxPacketSize) →
      MessageResult atRoom atLimit handle message
        ((s.afterMoon (s.getIdentifier handle) room).addPacket room
          (receivedPacket (s.getIdentifier handle) message h) handle message)
        (.accepted room true)
  | acceptedPlayer (room : Hash) : s.getIdentifier handle ≠ 0 → hashLength ≤ message.length →
      atRoom.getRoom (Hash.ofBytes message) = room → room ≠ Hash.empty →
      room ≠ Hash.ofBytes message → room ∈ s.packetAccumulator.packets →
      (h : message.length ≤ hashLength + maxPacketSize) →
      s.packetAccumulator.getConnectionCountWithoutConnection (s.getIdentifier handle) room <
        atLimit.getPlayerLimit room →
      MessageResult atRoom atLimit handle message
        (s.addPacket room (receivedPacket (s.getIdentifier handle) message h) handle message)
        (.accepted room false)

variable {s}

theorem ensureRoom_of_mem {room : Hash} (h : room ∈ s.packetAccumulator.packets) :
    s.ensureRoom room = s := by
  simp [ensureRoom, hasRoom, h]

/-- `onMessage` ends in one of the ways of `MessageResult`. -/
theorem onMessage_result (s : RelayServer) (atRoom atLimit : KeyManager) (handle : ConnectionHdl)
    (message : List UInt8) :
    s.MessageResult atRoom atLimit handle message
      (s.onMessage atRoom atLimit handle message).1
      (s.onMessage atRoom atLimit handle message).2 := by
  unfold onMessage
  by_cases hid : s.getIdentifier handle = 0
  · simpa [hid] using MessageResult.noIdentifier hid
  by_cases hshort : message.length < hashLength
  · simpa [hid, hshort] using MessageResult.tooShort hid hshort
  have hlen := Nat.le_of_not_lt hshort
  by_cases hempty : atRoom.getRoom (Hash.ofBytes message) = Hash.empty
  · simpa [hid, hshort, hempty] using MessageResult.unknownKey hid hlen hempty
  by_cases hmoon : atRoom.getRoom (Hash.ofBytes message) = Hash.ofBytes message
  · -- a moon client
    have hne : Hash.ofBytes message ≠ Hash.empty := hmoon ▸ hempty
    by_cases hsize : message.length > hashLength + maxPacketSize
    · have hr : s.MessageResult atRoom atLimit handle message _ _ :=
        .oversizedMoon _ hid hlen hmoon hne rfl hsize
      simpa [hid, hshort, hmoon, hne, hsize, addMoonIf, afterMoon] using hr
    · have hr : s.MessageResult atRoom atLimit handle message _ _ :=
        .acceptedMoon _ hid hlen hmoon hne rfl (Nat.le_of_not_gt hsize)
      simpa [hid, hshort, hmoon, hne, hsize, addMoonIf, afterMoon] using hr
  -- a player client
  by_cases hroom : atRoom.getRoom (Hash.ofBytes message) ∈ s.packetAccumulator.packets
  · by_cases hsize : message.length > hashLength + maxPacketSize
    · have hr : s.MessageResult atRoom atLimit handle message _ _ :=
        .oversizedPlayer _ hid hlen rfl hempty hmoon hroom hsize
      simpa [hid, hshort, hempty, hmoon, hroom, hsize, addMoonIf, hasRoom, ensureRoom] using hr
    · have hle := Nat.le_of_not_gt hsize
      by_cases hfull : atLimit.getPlayerLimit (atRoom.getRoom (Hash.ofBytes message)) ≤
          s.packetAccumulator.getConnectionCountWithoutConnection (s.getIdentifier handle)
            (atRoom.getRoom (Hash.ofBytes message))
      · have hr : s.MessageResult atRoom atLimit handle message _ _ :=
          .full _ hid hlen rfl hempty hmoon hroom hle hfull
        simpa [hid, hshort, hempty, hmoon, hroom, hsize, hfull, addMoonIf, hasRoom, ensureRoom]
          using hr
      · have hr : s.MessageResult atRoom atLimit handle message _ _ :=
          .acceptedPlayer _ hid hlen rfl hempty hmoon hroom hle (Nat.lt_of_not_le hfull)
        simpa [hid, hshort, hempty, hmoon, hroom, hsize, hfull, addMoonIf, hasRoom, ensureRoom]
          using hr
  · have hr : s.MessageResult atRoom atLimit handle message _ _ :=
      .noRoom _ hid hlen rfl hempty hmoon hroom
    simpa [hid, hshort, hempty, hmoon, hroom, addMoonIf, hasRoom] using hr

/-! ### The claiming loop -/

theorem toNat_ofNat_of_lt {n : ℕ} (h : n < uint16Max) : (UInt16.ofNat n).toNat = n := by
  rw [UInt16.toNat_ofNat']
  exact Nat.mod_eq_of_lt (by simp only [uint16Max] at h; omega)

theorem ofNat_ne_zero {n : ℕ} (h : n < uint16Max) (h0 : n ≠ 0) : UInt16.ofNat n ≠ 0 := by
  intro he
  have := congrArg UInt16.toNat he
  rw [toNat_ofNat_of_lt h] at this
  exact h0 (by simpa using this)

/-- What the loop finds is free and in the range of the loop. -/
theorem claimLoop_ne_zero {reserved : List UInt16} {n : ℕ} (hn : n < uint16Max)
    (h : claimLoop reserved n ≠ 0) :
    claimLoop reserved n ∉ reserved ∧ 1 ≤ (claimLoop reserved n).toNat ∧
      (claimLoop reserved n).toNat ≤ n := by
  induction n with
  | zero => exact absurd rfl h
  | succ n ih =>
    unfold claimLoop at h ⊢
    split_ifs at h ⊢ with hr
    · obtain ⟨h1, h2, h3⟩ := ih (by omega) h
      exact ⟨h1, h2, h3.trans (Nat.le_succ n)⟩
    · rw [toNat_ofNat_of_lt hn]
      refine ⟨fun hmem => hr ?_, by omega, le_rfl⟩
      simp only [List.any_eq_true, decide_eq_true_eq]
      exact ⟨_, hmem, toNat_ofNat_of_lt hn⟩

/-- The loop finds nothing exactly when every identifier of its range is reserved. -/
theorem claimLoop_eq_zero_iff {reserved : List UInt16} {n : ℕ} (hn : n < uint16Max) :
    claimLoop reserved n = 0 ↔ ∀ i, 1 ≤ i → i ≤ n → ∃ r ∈ reserved, r.toNat = i := by
  induction n with
  | zero => simp [claimLoop]; omega
  | succ n ih =>
    unfold claimLoop
    split_ifs with hr
    · simp only [List.any_eq_true, decide_eq_true_eq] at hr
      rw [ih (by omega)]
      refine ⟨fun h i h1 hi => ?_, fun h i h1 hi => h i h1 (by omega)⟩
      rcases Nat.lt_or_ge i (n + 1) with hlt | hge
      · exact h i h1 (by omega)
      · obtain rfl : i = n + 1 := by omega
        exact hr
    · refine ⟨fun h => absurd h (ofNat_ne_zero hn (by omega)), fun h => absurd ?_ hr⟩
      simpa using h (n + 1) (by omega) le_rfl

/-- With distinct identifiers from the range reserved, the loop fails exactly when there are as many
as the range has. -/
theorem claimLoop_ne_zero_iff {reserved : List UInt16} (hnd : reserved.Nodup)
    (hrange : ∀ r ∈ reserved, 1 ≤ r.toNat ∧ r.toNat ≤ uint16Max - 1) :
    claimLoop reserved (uint16Max - 1) ≠ 0 ↔ reserved.length < uint16Max - 1 := by
  have hinj : (reserved.map UInt16.toNat).Nodup := hnd.map fun _ _ => UInt16.toNat_inj.1
  have hsub : (reserved.map UInt16.toNat).toFinset ⊆ Finset.Icc 1 (uint16Max - 1) := by
    intro i hi
    obtain ⟨r, hr, rfl⟩ := List.mem_map.1 (List.mem_toFinset.1 hi)
    exact Finset.mem_Icc.2 (hrange r hr)
  have hcard : (reserved.map UInt16.toNat).toFinset.card = reserved.length := by
    rw [List.toFinset_card_of_nodup hinj, List.length_map]
  have hle : reserved.length ≤ uint16Max - 1 := by
    have := Finset.card_le_card hsub
    rwa [hcard, Nat.card_Icc, Nat.add_sub_cancel] at this
  rw [Ne, claimLoop_eq_zero_iff (by simp [uint16Max])]
  constructor
  · intro h
    refine Nat.lt_of_le_of_ne hle fun heq => h fun i h1 hi => ?_
    -- as many reserved identifiers as the range has: the sets are equal
    have hall := Finset.eq_of_subset_of_card_le hsub (by
      rw [hcard, Nat.card_Icc, Nat.add_sub_cancel, heq])
    have hmem : i ∈ (reserved.map UInt16.toNat).toFinset := hall ▸ Finset.mem_Icc.2 ⟨h1, hi⟩
    simpa using hmem
  · intro hlt h
    have hsup : Finset.Icc 1 (uint16Max - 1) ⊆ (reserved.map UInt16.toNat).toFinset := by
      intro i hi
      obtain ⟨h1, h2⟩ := Finset.mem_Icc.1 hi
      simpa using h i h1 h2
    have := Finset.card_le_card hsup
    rw [hcard, Nat.card_Icc, Nat.add_sub_cancel] at this
    omega

/-- The first two connections get the two largest identifiers. -/
example : claimLoop [] (uint16Max - 1) = 65534 ∧ claimLoop [65534] (uint16Max - 1) = 65533 := by
  decide

end RelayServer

end MoonJamRelay
