import MoonJamRelay.Relay.Run

/-!
# The tables of the relay

Between two handler calls the identifier tables, the moon table and the tables of the accumulator
fit together:

* `RelayServer.Identifiers` : the reserved identifiers are the values of the pointer map, without
  repetition, in the range of the claiming loop; every entry of the map belongs to one open
  connection.
* `RelayServer.Tables` : the rooms with packets are the rooms with handles; registered connections
  and moon clients are open and stored under the identifier they hold; moon clients have a room.

Both are kept by every handler (`Invariant.next`), so they hold in every reachable world
(`invariant_of_reachable`).  `tables_of_reachable` and `identifier_allocation` are the main results.
-/

namespace MoonJamRelay

namespace RelayServer

/-- The open connection `c` holds the identifier `i`. -/
def Owns (s : RelayServer) (connected : List ConnectionHdl) (i : UInt16) (c : ConnectionHdl) :
    Prop :=
  c ∈ connected ∧ s.handlePointerToIdentifierMap.lookup c.pointer = some i

/-- The invariant of the identifier tables. -/
structure Identifiers (s : RelayServer) (connected : List ConnectionHdl) : Prop where
  /-- Open connections have different addresses. -/
  pointers : ∀ c ∈ connected, ∀ c' ∈ connected, c.pointer = c'.pointer → c = c'
  /-- Every entry of the map belongs to an open connection. -/
  owner : ∀ p i, s.handlePointerToIdentifierMap.lookup p = some i → ∃ c ∈ connected, c.pointer = p
  injective : ∀ p p' i, s.handlePointerToIdentifierMap.lookup p = some i →
    s.handlePointerToIdentifierMap.lookup p' = some i → p = p'
  reserved_nodup : s.reservedIdentifiers.Nodup
  reserved_iff : ∀ i, i ∈ s.reservedIdentifiers ↔
    ∃ p, s.handlePointerToIdentifierMap.lookup p = some i
  range : ∀ i ∈ s.reservedIdentifiers, 1 ≤ i.toNat ∧ i.toNat ≤ uint16Max - 1

/-- The invariant of the moon table and the tables of the accumulator. -/
structure Tables (s : RelayServer) (connected : List ConnectionHdl) : Prop where
  /-- `m_packets` and `m_handles` have the same rooms. -/
  same_rooms : ∀ room, room ∈ s.packetAccumulator.packets ↔ room ∈ s.packetAccumulator.handles
  /-- No room lists an identifier twice. -/
  nodup : ∀ room, ((s.packetAccumulator.registered room).map
    ReceivedConnection.identifier).Nodup
  /-- A registered connection is open and holds the identifier it is stored under. -/
  registered : ∀ room, ∀ e ∈ s.packetAccumulator.registered room,
    s.Owns connected e.identifier e.handle
  /-- A moon client is an open connection, stored under its identifier. -/
  moons : ∀ i room, s.moonIdentifierToRoomMap.lookup i = some room → ∃ c, s.Owns connected i c
  /-- The room of a moon client exists. -/
  moon_rooms : ∀ i room, s.moonIdentifierToRoomMap.lookup i = some room →
    room ∈ s.packetAccumulator.packets

/-- The invariant of all tables of the relay. -/
structure Invariant (s : RelayServer) (connected : List ConnectionHdl) : Prop where
  identifiers : s.Identifiers connected
  tables : s.Tables connected

variable {s : RelayServer} {connected : List ConnectionHdl} {handle : ConnectionHdl} {i : UInt16}

theorem Owns.getIdentifier {c : ConnectionHdl} (h : s.Owns connected i c) :
    s.getIdentifier c = i := by
  simp [RelayServer.getIdentifier, h.2]

theorem lookup_of_getIdentifier_ne_zero (h : s.getIdentifier handle ≠ 0) :
    s.handlePointerToIdentifierMap.lookup handle.pointer = some (s.getIdentifier handle) := by
  unfold RelayServer.getIdentifier at h ⊢
  cases hl : s.handlePointerToIdentifierMap.lookup handle.pointer with
  | none => simp [hl] at h
  | some j => rfl

namespace Identifiers

theorem init : RelayServer.init.Identifiers [] := by
  constructor <;> simp [RelayServer.init]

theorem ne_zero (h : s.Identifiers connected) {p : ℕ}
    (hi : s.handlePointerToIdentifierMap.lookup p = some i) : i ≠ 0 := by
  rintro rfl
  have := (h.range 0 ((h.reserved_iff 0).2 ⟨p, hi⟩)).1
  simp at this

theorem lookup_of_getIdentifier_eq_zero (h : s.Identifiers connected)
    (h0 : s.getIdentifier handle = 0) :
    s.handlePointerToIdentifierMap.lookup handle.pointer = none := by
  cases hl : s.handlePointerToIdentifierMap.lookup handle.pointer with
  | none => rfl
  | some j =>
    have : s.getIdentifier handle = j := by simp [RelayServer.getIdentifier, hl]
    exact absurd (this.symm.trans h0) (h.ne_zero hl)

theorem eq_of_owns (h : s.Identifiers connected) {c c' : ConnectionHdl}
    (hc : s.Owns connected i c) (hc' : s.Owns connected i c') : c = c' :=
  h.pointers c hc.1 c' hc'.1 (h.injective _ _ i hc.2 hc'.2)

/-- The claiming loop finds an identifier nobody holds. -/
theorem claimIdentifier (h : s.Identifiers connected)
    (hfresh : ∀ c ∈ connected, c.pointer ≠ handle.pointer) :
    (s.claimIdentifier handle).Identifiers (handle :: connected) := by
  have hpointers : ∀ c ∈ handle :: connected, ∀ c' ∈ handle :: connected,
      c.pointer = c'.pointer → c = c' := by
    intro c hc c' hc' he
    rcases List.mem_cons.1 hc with h1 | h1 <;> rcases List.mem_cons.1 hc' with h2 | h2
    · exact h1.trans h2.symm
    · exact absurd (h1 ▸ he).symm (hfresh c' h2)
    · exact absurd (h2 ▸ he) (hfresh c h1)
    · exact h.pointers c h1 c' h2 he
  unfold RelayServer.claimIdentifier
  set new := claimLoop s.reservedIdentifiers (uint16Max - 1) with hnew
  simp only
  split_ifs with h0
  · exact ⟨hpointers, fun p j hp => by
      obtain ⟨c, hc, he⟩ := h.owner p j hp
      exact ⟨c, List.mem_cons_of_mem _ hc, he⟩,
      h.injective, h.reserved_nodup, h.reserved_iff, h.range⟩
  obtain ⟨hfree, hlow, hhigh⟩ := claimLoop_ne_zero (by simp [uint16Max]) h0
  rw [← hnew] at hfree hlow hhigh
  -- no address maps to the new identifier yet
  have hunused : ∀ p, s.handlePointerToIdentifierMap.lookup p ≠ some new :=
    fun p hp => hfree ((h.reserved_iff new).2 ⟨p, hp⟩)
  have hnone : s.handlePointerToIdentifierMap.lookup handle.pointer = none := by
    cases hl : s.handlePointerToIdentifierMap.lookup handle.pointer with
    | none => rfl
    | some j =>
      obtain ⟨c, hc, he⟩ := h.owner _ j hl
      exact absurd he (hfresh c hc)
  refine ⟨hpointers, ?_, ?_, ?_, ?_, ?_⟩
  · intro p j hp
    rw [UnorderedMap.lookup_insert_eq] at hp
    split_ifs at hp with hpe
    · exact ⟨handle, List.mem_cons_self, hpe.symm⟩
    · obtain ⟨c, hc, he⟩ := h.owner p j hp
      exact ⟨c, List.mem_cons_of_mem _ hc, he⟩
  · intro p p' j hp hp'
    rw [UnorderedMap.lookup_insert_eq] at hp hp'
    split_ifs at hp hp' with h1 h2 h2
    · rw [h1, h2]
    · cases hp; exact absurd hp' (hunused p')
    · cases hp'; exact absurd hp (hunused p)
    · exact h.injective p p' j hp hp'
  · exact List.nodup_append.2 ⟨h.reserved_nodup, List.nodup_singleton _, by
      rintro a ha b hb rfl
      exact hfree (List.mem_singleton.1 hb ▸ ha)⟩
  · intro j
    simp only [List.mem_append, List.mem_singleton, h.reserved_iff j,
      UnorderedMap.lookup_insert_eq]
    constructor
    · rintro (⟨p, hp⟩ | rfl)
      · refine ⟨p, ?_⟩
        rw [if_neg]
        · exact hp
        · rintro rfl
          rw [hnone] at hp
          cases hp
      · exact ⟨handle.pointer, if_pos rfl⟩
    · rintro ⟨p, hp⟩
      split_ifs at hp with hpe
      · exact .inr (Option.some.inj hp).symm
      · exact .inl ⟨p, hp⟩
  · intro j hj
    rcases List.mem_append.1 hj with hj | hj
    · exact h.range j hj
    · rw [List.mem_singleton.1 hj]
      exact ⟨hlow, hhigh⟩

theorem lookup_releaseIdentifier (p : ℕ) :
    (s.releaseIdentifier handle).handlePointerToIdentifierMap.lookup p =
      if p = handle.pointer then none else s.handlePointerToIdentifierMap.lookup p := by
  unfold RelayServer.releaseIdentifier
  cases hl : s.handlePointerToIdentifierMap.lookup handle.pointer with
  | none =>
    split_ifs with hp
    · rw [hp, hl]
    · rfl
  | some j => exact UnorderedMap.lookup_erase_eq _ _ _

theorem mem_reserved_releaseIdentifier (h : s.Identifiers connected) (j : UInt16) :
    j ∈ (s.releaseIdentifier handle).reservedIdentifiers ↔
      j ∈ s.reservedIdentifiers ∧ j ≠ s.getIdentifier handle := by
  unfold RelayServer.releaseIdentifier RelayServer.getIdentifier
  cases hl : s.handlePointerToIdentifierMap.lookup handle.pointer with
  | none =>
    refine ⟨fun hj => ⟨hj, fun h0 => ?_⟩, And.left⟩
    obtain ⟨p, hp⟩ := (h.reserved_iff j).1 hj
    exact h.ne_zero hp h0
  | some k => simp

theorem releaseIdentifier (h : s.Identifiers connected) :
    (s.releaseIdentifier handle).Identifiers (connected.filter fun c => c ≠ handle) := by
  have hmem : ∀ c, c ∈ connected.filter (fun c => c ≠ handle) ↔ c ∈ connected ∧ c ≠ handle := by
    simp
  have hreserved : ∀ j, j ∈ (s.releaseIdentifier handle).reservedIdentifiers ↔
      j ∈ s.reservedIdentifiers ∧ j ≠ s.getIdentifier handle := h.mem_reserved_releaseIdentifier
  refine ⟨fun c h1 c' h2 => h.pointers c ((hmem c).1 h1).1 c' ((hmem c').1 h2).1, ?_, ?_, ?_, ?_,
    fun j hj => h.range j ((hreserved j).1 hj).1⟩
  · intro p j hp
    rw [lookup_releaseIdentifier] at hp
    split_ifs at hp with hpe
    obtain ⟨c, hcc, he⟩ := h.owner p j hp
    exact ⟨c, (hmem c).2 ⟨hcc, fun e => hpe (e ▸ he.symm)⟩, he⟩
  · intro p p' j hp hp'
    rw [lookup_releaseIdentifier] at hp hp'
    split_ifs at hp hp'
    exact h.injective p p' j hp hp'
  · unfold RelayServer.releaseIdentifier
    cases s.handlePointerToIdentifierMap.lookup handle.pointer with
    | none => exact h.reserved_nodup
    | some j => exact h.reserved_nodup.filter _
  · intro j
    rw [hreserved, h.reserved_iff]
    simp only [lookup_releaseIdentifier]
    constructor
    · rintro ⟨⟨p, hp⟩, hj⟩
      refine ⟨p, ?_⟩
      rw [if_neg]
      · exact hp
      · rintro rfl
        exact hj (by simp [RelayServer.getIdentifier, hp])
    · rintro ⟨p, hp⟩
      split_ifs at hp with hpe
      refine ⟨⟨p, hp⟩, fun hj => hpe ?_⟩
      have hne : s.getIdentifier handle ≠ 0 := hj ▸ h.ne_zero hp
      exact h.injective _ _ j hp (hj ▸ lookup_of_getIdentifier_ne_zero hne)

end Identifiers

/-! ### The operations of the handlers -/

section

variable {room : Hash}

/-- The invariant only reads the identifier tables through `Owns`. -/
theorem Owns.congr {s' : RelayServer} {c : ConnectionHdl}
    (hmap : s'.handlePointerToIdentifierMap = s.handlePointerToIdentifierMap) :
    s'.Owns connected i c ↔ s.Owns connected i c := by
  simp [Owns, hmap]

theorem mem_packets_ensureRoom (r : Hash) :
    r ∈ (s.ensureRoom room).packetAccumulator.packets ↔
      r = room ∨ r ∈ s.packetAccumulator.packets := by
  unfold ensureRoom hasRoom
  split_ifs with h
  · rw [PacketAccumulator.hasRoom_iff] at h
    exact ⟨Or.inr, fun h' => h'.elim (fun e => e ▸ h) id⟩
  · exact PacketAccumulator.mem_packets_createRoom r

theorem ensureRoom_eq : s.ensureRoom room = s.createRoom room := by
  unfold ensureRoom hasRoom
  split_ifs with h
  · rw [PacketAccumulator.hasRoom_iff] at h
    simp [createRoom, PacketAccumulator.createRoom, h]
  · rfl

@[simp] theorem handlePointerToIdentifierMap_afterMoon (j : UInt16) :
    (s.afterMoon j room).handlePointerToIdentifierMap = s.handlePointerToIdentifierMap := by
  simp [afterMoon, ensureRoom_eq, createRoom, addMoon]

@[simp] theorem reservedIdentifiers_afterMoon (j : UInt16) :
    (s.afterMoon j room).reservedIdentifiers = s.reservedIdentifiers := by
  simp [afterMoon, ensureRoom_eq, createRoom, addMoon]

@[simp] theorem moons_afterMoon (j : UInt16) :
    (s.afterMoon j room).moonIdentifierToRoomMap = s.moonIdentifierToRoomMap.insert j room := by
  simp [afterMoon, ensureRoom_eq, createRoom, addMoon]

@[simp] theorem packetAccumulator_afterMoon (j : UInt16) :
    (s.afterMoon j room).packetAccumulator = s.packetAccumulator.createRoom room := by
  simp [afterMoon, ensureRoom_eq, createRoom, addMoon]

/-- The identifier tables are all that `Identifiers` reads. -/
theorem Identifiers.congr {s' : RelayServer} (h : s.Identifiers connected)
    (hmap : s'.handlePointerToIdentifierMap = s.handlePointerToIdentifierMap)
    (hres : s'.reservedIdentifiers = s.reservedIdentifiers) : s'.Identifiers connected := by
  obtain ⟨h1, h2, h3, h4, h5, h6⟩ := h
  exact ⟨h1, by rwa [hmap], by rwa [hmap], by rwa [hres], by rwa [hmap, hres], by rwa [hres]⟩

/-- Noting a moon client and making sure its room exists. -/
theorem Invariant.afterMoon (h : s.Invariant connected) (hi : s.Owns connected i handle) :
    (s.afterMoon i room).Invariant connected := by
  refine ⟨h.identifiers.congr (by simp) (by simp), ?_, ?_, ?_, ?_, ?_⟩
  · intro r
    rw [packetAccumulator_afterMoon, PacketAccumulator.mem_packets_createRoom,
      PacketAccumulator.mem_handles_createRoom h.tables.same_rooms, h.tables.same_rooms]
  · intro r
    rw [packetAccumulator_afterMoon, PacketAccumulator.registered_createRoom h.tables.same_rooms]
    exact h.tables.nodup r
  · intro r e he
    rw [packetAccumulator_afterMoon,
      PacketAccumulator.registered_createRoom h.tables.same_rooms] at he
    exact (Owns.congr (by simp)).2 (h.tables.registered r e he)
  · intro j r hj
    simp only [moons_afterMoon, UnorderedMap.lookup_insert_eq] at hj
    simp only [Owns.congr (handlePointerToIdentifierMap_afterMoon i)]
    split_ifs at hj with hji
    · exact ⟨handle, hji ▸ hi⟩
    · exact h.tables.moons j r hj
  · intro j r hj
    simp only [moons_afterMoon, UnorderedMap.lookup_insert_eq] at hj
    rw [packetAccumulator_afterMoon, PacketAccumulator.mem_packets_createRoom]
    split_ifs at hj with hji
    · exact .inl (Option.some.inj hj).symm
    · exact .inr (h.tables.moon_rooms j r hj)

/-- Storing a packet of an open connection in a room that exists. -/
theorem Invariant.addPacket (h : s.Invariant connected) {p : ReceivedPacket}
    (hp : s.Owns connected p.identifier handle) (hroom : room ∈ s.packetAccumulator.packets)
    (message : List UInt8) : (s.addPacket room p handle message).Invariant connected := by
  have hreg := PacketAccumulator.registered_addPacket hroom p handle message
  refine ⟨h.identifiers.congr rfl rfl, ?_, ?_, ?_, h.tables.moons, ?_⟩
  · intro r
    simp only [RelayServer.addPacket, PacketAccumulator.mem_packets_addPacket,
      PacketAccumulator.mem_handles_addPacket h.tables.same_rooms, h.tables.same_rooms]
  · intro r
    simp only [RelayServer.addPacket, hreg]
    exact PacketAccumulator.nodup_registerHandle h.tables.nodup _ _ r
  · intro r e he
    simp only [RelayServer.addPacket, hreg] at he
    rcases PacketAccumulator.mem_registered_registerHandle he with he | ⟨-, rfl⟩
    · exact h.tables.registered r e he
    · exact hp
  · intro j r hj
    simp only [RelayServer.addPacket, PacketAccumulator.mem_packets_addPacket]
    exact h.tables.moon_rooms j r hj

/-- Every way a message ends keeps the invariant. -/
theorem Invariant.onMessage (h : s.Invariant connected) (hc : handle ∈ connected)
    {atRoom atLimit : KeyManager} {message : List UInt8} {s' : RelayServer} {reply : Reply}
    (hr : s.MessageResult atRoom atLimit handle message s' reply) : s'.Invariant connected := by
  have hown : s.getIdentifier handle ≠ 0 → s.Owns connected (s.getIdentifier handle) handle :=
    fun hid => ⟨hc, lookup_of_getIdentifier_ne_zero hid⟩
  cases hr with
  | noIdentifier | tooShort | unknownKey | noRoom | oversizedPlayer | full => exact h
  | oversizedMoon room hid => exact h.afterMoon (hown hid)
  | acceptedMoon room hid =>
    have hown' := hown hid
    refine (h.afterMoon hown').addPacket ((Owns.congr (by simp)).2 hown') ?_ message
    rw [packetAccumulator_afterMoon]
    exact (PacketAccumulator.mem_packets_createRoom room).2 (.inl rfl)
  | acceptedPlayer room hid _ _ _ _ hroom => exact h.addPacket (hown hid) hroom message

theorem packetAccumulator_claimIdentifier :
    (s.claimIdentifier handle).packetAccumulator = s.packetAccumulator := by
  unfold RelayServer.claimIdentifier
  simp only
  split_ifs <;> rfl

@[simp] theorem packetAccumulator_onOpen :
    (s.onOpen handle).packetAccumulator = s.packetAccumulator :=
  packetAccumulator_claimIdentifier

@[simp] theorem moons_onOpen :
    (s.onOpen handle).moonIdentifierToRoomMap = s.moonIdentifierToRoomMap := by
  unfold RelayServer.onOpen RelayServer.claimIdentifier
  simp only
  split_ifs <;> rfl

theorem lookup_claimIdentifier_of_ne {p : ℕ} (hp : p ≠ handle.pointer) :
    (s.claimIdentifier handle).handlePointerToIdentifierMap.lookup p =
      s.handlePointerToIdentifierMap.lookup p := by
  unfold RelayServer.claimIdentifier
  simp only
  split_ifs
  · rfl
  · rw [UnorderedMap.lookup_insert_eq, if_neg hp]

theorem Owns.claimIdentifier {c : ConnectionHdl} (h : s.Owns connected i c)
    (hfresh : ∀ c ∈ connected, c.pointer ≠ handle.pointer) :
    (s.claimIdentifier handle).Owns (handle :: connected) i c :=
  ⟨List.mem_cons_of_mem _ h.1, (lookup_claimIdentifier_of_ne (hfresh c h.1)).trans h.2⟩

theorem Owns.releaseIdentifier {c : ConnectionHdl} (h : s.Owns connected i c)
    (hids : s.Identifiers connected) (hc : handle ∈ connected) (hne : i ≠ s.getIdentifier handle) :
    (s.releaseIdentifier handle).Owns (connected.filter fun c => c ≠ handle) i c := by
  have hch : c ≠ handle := fun e => hne (e ▸ h.getIdentifier.symm)
  refine ⟨by simpa using ⟨h.1, hch⟩, ?_⟩
  rw [Identifiers.lookup_releaseIdentifier, if_neg]
  · exact h.2
  · exact fun hp => hch (hids.pointers c h.1 handle hc hp)

theorem Invariant.onOpen (h : s.Invariant connected)
    (hfresh : ∀ c ∈ connected, c.pointer ≠ handle.pointer) :
    (s.onOpen handle).Invariant (handle :: connected) := by
  have hacc : (s.onOpen handle).packetAccumulator = s.packetAccumulator := packetAccumulator_onOpen
  have hmoon : (s.onOpen handle).moonIdentifierToRoomMap = s.moonIdentifierToRoomMap := moons_onOpen
  refine ⟨h.identifiers.claimIdentifier hfresh, by rw [hacc]; exact h.tables.same_rooms,
    by rw [hacc]; exact h.tables.nodup, ?_, ?_, by rw [hacc, hmoon]; exact h.tables.moon_rooms⟩
  · intro r e he
    rw [hacc] at he
    exact (h.tables.registered r e he).claimIdentifier hfresh
  · intro j r hj
    rw [hmoon] at hj
    obtain ⟨c, hc⟩ := h.tables.moons j r hj
    exact ⟨c, hc.claimIdentifier hfresh⟩

theorem Invariant.takePackets (h : s.Invariant connected) :
    (s.takePackets room).Invariant connected := by
  have hreg : ∀ r, (s.takePackets room).packetAccumulator.registered r =
      s.packetAccumulator.registered r := fun r => by
    simp [RelayServer.takePackets, PacketAccumulator.registered]
  refine ⟨h.identifiers.congr rfl rfl, ?_, fun r => by rw [hreg]; exact h.tables.nodup r,
    fun r e he => h.tables.registered r e (hreg r ▸ he), h.tables.moons, ?_⟩
  · intro r
    simp only [RelayServer.takePackets, PacketAccumulator.mem_packets_getPackets,
      PacketAccumulator.handles_getPackets]
    exact h.tables.same_rooms r
  · intro j r hj
    simp only [RelayServer.takePackets, PacketAccumulator.mem_packets_getPackets]
    exact h.tables.moon_rooms j r hj

end

/-! ### Closing a connection -/

/-- The room a closing connection destroys: it was noted for its identifier, and for no other. -/
theorem eraseMoon_snd (room : Hash) : (s.eraseMoon i).2 = some room ↔
    s.moonIdentifierToRoomMap.lookup i = some room ∧
      ∀ j, j ≠ i → s.moonIdentifierToRoomMap.lookup j ≠ some room := by
  unfold eraseMoon
  cases hl : s.moonIdentifierToRoomMap.lookup i with
  | none => simp
  | some r =>
    simp only [Option.some.injEq]
    split_ifs with hany
    · simp only [false_iff, not_and]
      rintro rfl hall
      obtain ⟨j, v, hj, hv⟩ := UnorderedMap.anyValue_iff.1 hany
      rw [UnorderedMap.lookup_erase_eq] at hj
      split_ifs at hj with hji
      exact hall j hji (hj.trans (congrArg some (of_decide_eq_true hv)))
    · simp only [Option.some.injEq]
      refine ⟨?_, And.left⟩
      rintro rfl
      refine ⟨rfl, fun j hji hj => hany (UnorderedMap.anyValue_iff.2 ⟨j, r, ?_, by simp⟩)⟩
      rw [UnorderedMap.lookup_erase_eq, if_neg hji, hj]

theorem lookup_eraseMoon (j : UInt16) : (s.eraseMoon i).1.moonIdentifierToRoomMap.lookup j =
    if j = i then none else s.moonIdentifierToRoomMap.lookup j := by
  unfold eraseMoon
  cases hl : s.moonIdentifierToRoomMap.lookup i with
  | none =>
    split_ifs with hj
    · rw [hj, hl]
    · rfl
  | some r => exact UnorderedMap.lookup_erase_eq _ _ _

theorem handlePointerToIdentifierMap_eraseMoon :
    (s.eraseMoon i).1.handlePointerToIdentifierMap = s.handlePointerToIdentifierMap := by
  unfold eraseMoon; cases s.moonIdentifierToRoomMap.lookup i <;> rfl

theorem reservedIdentifiers_eraseMoon :
    (s.eraseMoon i).1.reservedIdentifiers = s.reservedIdentifiers := by
  unfold eraseMoon; cases s.moonIdentifierToRoomMap.lookup i <;> rfl

theorem packetAccumulator_eraseMoon :
    (s.eraseMoon i).1.packetAccumulator = s.packetAccumulator := by
  unfold eraseMoon; cases s.moonIdentifierToRoomMap.lookup i <;> rfl

/-- The state in which a closing connection releases its identifier. -/
def beforeRelease (s : RelayServer) (handle : ConnectionHdl) : RelayServer :=
  ((s.eraseMoon (s.getIdentifier handle)).1.destroyIfSome
    (s.eraseMoon (s.getIdentifier handle)).2).removeConnection (s.getIdentifier handle)

theorem onClose_fst : (s.onClose handle).1 = (s.beforeRelease handle).releaseIdentifier handle :=
  rfl

theorem onClose_snd : (s.onClose handle).2 = (s.eraseMoon (s.getIdentifier handle)).2 := rfl

theorem handlePointerToIdentifierMap_beforeRelease :
    (s.beforeRelease handle).handlePointerToIdentifierMap = s.handlePointerToIdentifierMap := by
  refine Eq.trans ?_ (handlePointerToIdentifierMap_eraseMoon (i := s.getIdentifier handle))
  unfold beforeRelease destroyIfSome
  cases (s.eraseMoon (s.getIdentifier handle)).2 <;> rfl

theorem reservedIdentifiers_beforeRelease :
    (s.beforeRelease handle).reservedIdentifiers = s.reservedIdentifiers := by
  refine Eq.trans ?_ (reservedIdentifiers_eraseMoon (i := s.getIdentifier handle))
  unfold beforeRelease destroyIfSome
  cases (s.eraseMoon (s.getIdentifier handle)).2 <;> rfl

theorem moons_beforeRelease : (s.beforeRelease handle).moonIdentifierToRoomMap =
    (s.eraseMoon (s.getIdentifier handle)).1.moonIdentifierToRoomMap := by
  unfold beforeRelease destroyIfSome
  cases (s.eraseMoon (s.getIdentifier handle)).2 <;> rfl

theorem moons_releaseIdentifier :
    (s.releaseIdentifier handle).moonIdentifierToRoomMap = s.moonIdentifierToRoomMap := by
  unfold RelayServer.releaseIdentifier
  cases s.handlePointerToIdentifierMap.lookup handle.pointer <;> rfl

theorem packetAccumulator_releaseIdentifier :
    (s.releaseIdentifier handle).packetAccumulator = s.packetAccumulator := by
  unfold RelayServer.releaseIdentifier
  cases s.handlePointerToIdentifierMap.lookup handle.pointer <;> rfl

/-- The accumulator after a close: the room, if any, is destroyed, and the identifier removed. -/
theorem packetAccumulator_onClose : (s.onClose handle).1.packetAccumulator =
    ((s.onClose handle).2.elim s.packetAccumulator
      s.packetAccumulator.destroyRoom).removeConnection (s.getIdentifier handle) := by
  rw [onClose_fst, packetAccumulator_releaseIdentifier, onClose_snd]
  have h := packetAccumulator_eraseMoon (s := s) (i := s.getIdentifier handle)
  unfold beforeRelease destroyIfSome
  cases (s.eraseMoon (s.getIdentifier handle)).2 with
  | none => simp [removeConnection, h]
  | some room => simp [removeConnection, RelayServer.destroyRoom, h]

theorem lookup_moons_onClose (j : UInt16) :
    (s.onClose handle).1.moonIdentifierToRoomMap.lookup j =
      if j = s.getIdentifier handle then none else s.moonIdentifierToRoomMap.lookup j := by
  rw [onClose_fst, moons_releaseIdentifier, moons_beforeRelease, lookup_eraseMoon]

theorem lookup_onClose (p : ℕ) : (s.onClose handle).1.handlePointerToIdentifierMap.lookup p =
    if p = handle.pointer then none else s.handlePointerToIdentifierMap.lookup p := by
  rw [onClose_fst, Identifiers.lookup_releaseIdentifier,
    handlePointerToIdentifierMap_beforeRelease]

theorem mem_packets_onClose (r : Hash) : r ∈ (s.onClose handle).1.packetAccumulator.packets ↔
    (s.onClose handle).2 ≠ some r ∧ r ∈ s.packetAccumulator.packets := by
  rw [packetAccumulator_onClose, PacketAccumulator.packets_removeConnection]
  cases (s.onClose handle).2 with
  | none => simp
  | some room => simp [PacketAccumulator.mem_packets_destroyRoom, eq_comm]

theorem mem_handles_onClose (h : s.Tables connected) (r : Hash) :
    r ∈ (s.onClose handle).1.packetAccumulator.handles ↔
      (s.onClose handle).2 ≠ some r ∧ r ∈ s.packetAccumulator.handles := by
  rw [packetAccumulator_onClose, PacketAccumulator.mem_handles_removeConnection]
  cases (s.onClose handle).2 with
  | none => simp
  | some room => simp [PacketAccumulator.mem_handles_destroyRoom h.same_rooms, eq_comm]

theorem mem_registered_onClose (h : s.Tables connected) (r : Hash) (e : ReceivedConnection) :
    e ∈ (s.onClose handle).1.packetAccumulator.registered r ↔
      (s.onClose handle).2 ≠ some r ∧ e ∈ s.packetAccumulator.registered r ∧
        e.identifier ≠ s.getIdentifier handle := by
  rw [packetAccumulator_onClose, PacketAccumulator.registered_removeConnection]
  cases (s.onClose handle).2 with
  | none => simp [PacketAccumulator.mem_eraseP_identifier (h.nodup r)]
  | some room =>
    simp only [Option.elim_some, PacketAccumulator.registered_destroyRoom h.same_rooms]
    split_ifs with hr
    · simp [hr]
    · simp [PacketAccumulator.mem_eraseP_identifier (h.nodup r), Ne.symm hr]

theorem registered_onClose_sublist (h : s.Tables connected) (r : Hash) :
    ((s.onClose handle).1.packetAccumulator.registered r).Sublist
      (s.packetAccumulator.registered r) := by
  rw [packetAccumulator_onClose, PacketAccumulator.registered_removeConnection]
  refine (List.eraseP_sublist).trans ?_
  cases (s.onClose handle).2 with
  | none => exact List.Sublist.refl _
  | some room =>
    simp only [Option.elim_some, PacketAccumulator.registered_destroyRoom h.same_rooms]
    split_ifs
    · exact List.nil_sublist _
    · exact List.Sublist.refl _

/-- What a message changes in the list of a room: an accepted message registers its sender, when
the identifier is not in the list. -/
theorem registered_onMessage (h : s.Tables connected) {atRoom atLimit : KeyManager}
    {message : List UInt8} {s' : RelayServer} {reply : Reply}
    (hr : s.MessageResult atRoom atLimit handle message s' reply) (r : Hash) :
    s'.packetAccumulator.registered r =
      if (reply = .accepted r true ∨ reply = .accepted r false) ∧
          ¬ PacketAccumulator.contains (s.getIdentifier handle) (s.packetAccumulator.registered r)
        then s.packetAccumulator.registered r ++ [⟨s.getIdentifier handle, handle⟩]
      else s.packetAccumulator.registered r := by
  have hcreate := fun room : Hash =>
    @PacketAccumulator.registered_createRoom s.packetAccumulator room h.same_rooms
  cases hr with
  | noIdentifier | tooShort | unknownKey | noRoom | oversizedPlayer | full => simp
  | oversizedMoon room => simp [hcreate]
  | acceptedMoon room =>
    have hroom : room ∈ (s.afterMoon (s.getIdentifier handle) room).packetAccumulator.packets := by
      rw [packetAccumulator_afterMoon]
      exact (PacketAccumulator.mem_packets_createRoom room).2 (.inl rfl)
    rw [RelayServer.addPacket, PacketAccumulator.registered_addPacket hroom,
      PacketAccumulator.registered_registerHandle, packetAccumulator_afterMoon, hcreate, hcreate]
    by_cases hrr : r = room
    · subst hrr; simp [receivedPacket]
    · simp [hrr, Ne.symm hrr]
  | acceptedPlayer room _ _ _ _ _ hroom =>
    rw [RelayServer.addPacket, PacketAccumulator.registered_addPacket hroom,
      PacketAccumulator.registered_registerHandle]
    by_cases hrr : r = room
    · subst hrr; simp [receivedPacket]
    · simp [hrr, Ne.symm hrr]

theorem Invariant.onClose (h : s.Invariant connected) (hc : handle ∈ connected) :
    (s.onClose handle).1.Invariant (connected.filter fun c => c ≠ handle) := by
  -- what other connections hold does not change
  have hkeep : ∀ j c, s.Owns connected j c → j ≠ s.getIdentifier handle →
      (s.onClose handle).1.Owns (connected.filter fun c => c ≠ handle) j c := by
    intro j c hj hne
    have hch : c ≠ handle := fun e => hne (e ▸ hj.getIdentifier.symm)
    refine ⟨by simpa using ⟨hj.1, hch⟩, ?_⟩
    rw [lookup_onClose, if_neg fun hp => hch (h.identifiers.pointers c hj.1 handle hc hp)]
    exact hj.2
  refine ⟨(h.identifiers.congr handlePointerToIdentifierMap_beforeRelease
    reservedIdentifiers_beforeRelease).releaseIdentifier, ?_, ?_, ?_, ?_, ?_⟩
  · intro r
    rw [mem_packets_onClose, mem_handles_onClose h.tables, h.tables.same_rooms]
  · intro r
    exact (h.tables.nodup r).sublist ((registered_onClose_sublist h.tables r).map _)
  · intro r e he
    obtain ⟨-, hmem, hne⟩ := (mem_registered_onClose h.tables r e).1 he
    exact hkeep _ _ (h.tables.registered r e hmem) hne
  · intro j r hj
    rw [lookup_moons_onClose] at hj
    split_ifs at hj with hji
    obtain ⟨c, hcj⟩ := h.tables.moons j r hj
    exact ⟨c, hkeep j c hcj hji⟩
  · intro j r hj
    rw [lookup_moons_onClose] at hj
    split_ifs at hj with hji
    refine (mem_packets_onClose r).2 ⟨fun hd => ?_, h.tables.moon_rooms j r hj⟩
    rw [onClose_snd, eraseMoon_snd] at hd
    exact hd.2 j hji hj

end RelayServer

/-! ### Reachable worlds -/

open RelayServer

variable {w w' : World}

theorem invariant_next {call : Call} (h : w.server.Invariant w.connected)
    (hst : relay.next w call = some w') : w'.server.Invariant w'.connected := by
  cases call with
  | onOpen handle =>
    obtain ⟨hfresh, rfl⟩ := World.next_onOpen.1 hst
    exact h.onOpen hfresh.2
  | onClose handle =>
    obtain ⟨hc, rfl⟩ := World.next_onClose.1 hst
    exact h.onClose hc
  | onMessage handle message atRoom atLimit =>
    obtain ⟨hc, rfl⟩ := World.next_onMessage.1 hst
    exact h.onMessage hc (onMessage_result _ _ _ _ _)
  | getPackets room =>
    obtain rfl := World.next_getPackets.1 hst
    exact h.takePackets

theorem invariant_of_reachable (h : relay.Reachable w) : w.server.Invariant w.connected := by
  refine h.invariant (I := fun w => w.server.Invariant w.connected) ⟨Identifiers.init, ?_⟩
    fun _ _ _ _ hu hst => invariant_next hu hst
  constructor <;> simp [World.init, RelayServer.init, PacketAccumulator.init,
    PacketAccumulator.registered]

/-- Every connection that is open or got a reply was opened. -/
structure World.Opened (w : World) : Prop where
  replied : ∀ c reply, .replied c reply ∈ w.history → c ∈ w.opened
  connected : ∀ c ∈ w.connected, c ∈ w.opened

theorem opened_of_reachable (h : relay.Reachable w) : w.Opened := by
  refine h.invariant (I := World.Opened) ⟨by simp [World.init], by simp [World.init]⟩ ?_
  intro u call u' _ hu hst
  cases call with
  | onOpen handle =>
    obtain ⟨-, rfl⟩ := World.next_onOpen.1 hst
    refine ⟨fun c reply hc => List.mem_cons_of_mem _ (hu.replied c reply hc), fun c hc => ?_⟩
    rcases List.mem_cons.1 hc with rfl | hc
    · exact List.mem_cons_self
    · exact List.mem_cons_of_mem _ (hu.connected c hc)
  | onClose handle =>
    obtain ⟨-, rfl⟩ := World.next_onClose.1 hst
    exact ⟨fun c reply hc => hu.replied c reply (by simpa using hc),
      fun c hc => hu.connected c (List.mem_filter.1 hc).1⟩
  | onMessage handle message atRoom atLimit =>
    obtain ⟨hh, rfl⟩ := World.next_onMessage.1 hst
    refine ⟨fun c reply hc => ?_, hu.connected⟩
    rcases List.mem_cons.1 hc with he | hc
    · cases he; exact hu.connected handle hh
    · exact hu.replied c reply hc
  | getPackets room =>
    obtain rfl := World.next_getPackets.1 hst
    exact ⟨hu.replied, hu.connected⟩

/-- No table mentions the connection or the identifier; the packets it sent may still wait. -/
structure RelayServer.Forgotten (s : RelayServer) (handle : ConnectionHdl) (i : UInt16) :
    Prop where
  pointer : handle.pointer ∉ s.handlePointerToIdentifierMap
  identifier : ∀ p, s.handlePointerToIdentifierMap.lookup p ≠ some i
  reserved : i ∉ s.reservedIdentifiers
  moon : i ∉ s.moonIdentifierToRoomMap
  registered : ∀ room, ∀ e ∈ s.packetAccumulator.registered room,
    e.identifier ≠ i ∧ e.handle ≠ handle

theorem RelayServer.Invariant.forgotten {s : RelayServer} {connected : List ConnectionHdl}
    {handle : ConnectionHdl} (h : s.Invariant connected) (hc : handle ∈ connected) :
    (s.onClose handle).1.Forgotten handle (s.getIdentifier handle) := by
  have hclosed := h.onClose hc
  have hreserved : s.getIdentifier handle ∉ (s.onClose handle).1.reservedIdentifiers := by
    rw [onClose_fst]
    have hids : (s.beforeRelease handle).Identifiers connected := h.identifiers.congr
      handlePointerToIdentifierMap_beforeRelease reservedIdentifiers_beforeRelease
    rw [hids.mem_reserved_releaseIdentifier]
    rintro ⟨-, hne⟩
    exact hne (by simp [RelayServer.getIdentifier, handlePointerToIdentifierMap_beforeRelease])
  refine ⟨?_, ?_, hreserved, ?_, ?_⟩
  · rw [← AList.lookup_eq_none, lookup_onClose, if_pos rfl]
  · exact fun p hp => hreserved ((hclosed.identifiers.reserved_iff _).2 ⟨p, hp⟩)
  · rw [← AList.lookup_eq_none, lookup_moons_onClose, if_pos rfl]
  · intro room e he
    refine ⟨((mem_registered_onClose h.tables room e).1 he).2.2, fun hh => ?_⟩
    have hopen := (hclosed.tables.registered room e he).1
    simp [hh] at hopen

/-- **The tables of the relay fit together** between any two handler calls: rooms have packets
exactly when they have handles; no room lists an identifier twice; what is registered or noted as
a moon client is a nonzero reserved identifier with the open connection that holds it; moon clients
have rooms; and a closed connection leaves no trace but the sender tags of waiting packets. -/
theorem tables_of_reachable (h : relay.Reachable w) :
    (∀ room, room ∈ w.server.packetAccumulator.packets ↔
      room ∈ w.server.packetAccumulator.handles) ∧
    (∀ room, ((w.server.packetAccumulator.registered room).map
      ReceivedConnection.identifier).Nodup) ∧
    (∀ room, ∀ e ∈ w.server.packetAccumulator.registered room, e.identifier ≠ 0 ∧
      e.identifier ∈ w.server.reservedIdentifiers ∧
      w.server.Owns w.connected e.identifier e.handle) ∧
    (∀ i room, w.server.moonIdentifierToRoomMap.lookup i = some room → i ≠ 0 ∧
      i ∈ w.server.reservedIdentifiers ∧ (∃ c, w.server.Owns w.connected i c) ∧
      room ∈ w.server.packetAccumulator.packets) ∧
    ∀ c w', relay.next w (.onClose c) = some w' →
      w'.server.Forgotten c (w.server.getIdentifier c) := by
  have hi := invariant_of_reachable h
  have hreserved : ∀ i c, w.server.Owns w.connected i c →
      i ≠ 0 ∧ i ∈ w.server.reservedIdentifiers := fun i c hc =>
    ⟨hi.identifiers.ne_zero hc.2, (hi.identifiers.reserved_iff i).2 ⟨_, hc.2⟩⟩
  refine ⟨hi.tables.same_rooms, hi.tables.nodup, fun room e he => ?_, fun i room hm => ?_,
    fun c w' hst => ?_⟩
  · have hown := hi.tables.registered room e he
    exact ⟨(hreserved _ _ hown).1, (hreserved _ _ hown).2, hown⟩
  · obtain ⟨c, hc⟩ := hi.tables.moons i room hm
    exact ⟨(hreserved _ _ hc).1, (hreserved _ _ hc).2, ⟨c, hc⟩, hi.tables.moon_rooms i room hm⟩
  · obtain ⟨hc, rfl⟩ := World.next_onClose.1 hst
    exact hi.forgotten hc

/-- The run of the moon and the player client, and the close of the moon client after it. -/
theorem tables_of_moonWorld :
    moonWorld.server.packetAccumulator.registered moonKey =
      [⟨65534, moonHandle⟩, ⟨65533, plebHandle⟩] ∧
    ∃ w', relay.next moonWorld (.onClose moonHandle) = some w' ∧
      w'.server.Forgotten moonHandle 65534 := by
  refine ⟨by decide, (relay.next moonWorld (.onClose moonHandle)).get (by decide),
    (Option.some_get _).symm, ?_⟩
  have hid : moonWorld.server.getIdentifier moonHandle = 65534 := by decide
  exact hid ▸ (tables_of_reachable moonWorld_reachable).2.2.2.2 moonHandle _
    (Option.some_get _).symm

end MoonJamRelay
