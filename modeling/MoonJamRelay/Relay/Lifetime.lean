import MoonJamRelay.Relay.Allocation

/-!
# The lifetime of a room

A room is created for the first moon client and destroyed with the last one.  The moon table holds
one room per identifier, so this is right as long as a connection presents the moon key of one room
only:

* `Presented` : an open connection has had a message with the moon key of the room processed.
* `OneMoonKey` : the step does not present the moon key of a second room.
* `hasRoom_iff_presented` : in runs of such steps the rooms are those of the open moon clients.
* `not_hasRoom_iff_presented` : a connection that presents the moon keys of two rooms leaves the
  first one behind when it closes.
-/

namespace MoonJamRelay

/-- The room a reply shows the sender to be a moon client of. -/
def Reply.moonRoom : Reply → Option Hash
  | .oversized room true | .accepted room true => some room
  | _ => none

namespace RelayServer

variable {s : RelayServer}

/-- The moon key a message presents: its first bytes, when the message is processed and the table
finds the key to be the moon key of its pair. -/
def presentedKey (s : RelayServer) (atRoom : KeyManager) (handle : ConnectionHdl)
    (message : List UInt8) : Option Hash :=
  if s.getIdentifier handle ≠ 0 ∧ hashLength ≤ message.length ∧
      Hash.ofBytes message ≠ Hash.empty ∧
      atRoom.getRoom (Hash.ofBytes message) = Hash.ofBytes message then
    some (Hash.ofBytes message)
  else none

/-- The reply shows which moon key the message presented. -/
theorem moonRoom_of_result {atRoom atLimit : KeyManager} {handle : ConnectionHdl}
    {message : List UInt8} {s' : RelayServer} {reply : Reply}
    (hr : s.MessageResult atRoom atLimit handle message s' reply) :
    reply.moonRoom = s.presentedKey atRoom handle message := by
  unfold presentedKey
  cases hr with
  | noIdentifier h0 => rw [if_neg fun h => h.1 h0]; rfl
  | tooShort _ hl => rw [if_neg fun h => absurd h.2.1 (Nat.not_le_of_lt hl)]; rfl
  | unknownKey _ _ he => rw [if_neg fun h => h.2.2.1 (h.2.2.2.symm.trans he)]; rfl
  | noRoom room _ _ hroom _ hne | oversizedPlayer room _ _ hroom _ hne
  | full room _ _ hroom _ hne | acceptedPlayer room _ _ hroom _ hne =>
    rw [if_neg fun h => hne (hroom.symm.trans h.2.2.2)]; rfl
  | oversizedMoon room h0 hl hroom hempty heq | acceptedMoon room h0 hl hroom hempty heq =>
    subst heq
    rw [if_pos ⟨h0, hl, hempty, hroom⟩]; rfl

end RelayServer

/-- The connection has had a message with the moon key of the room processed. -/
def Presented (w : World) (c : ConnectionHdl) (room : Hash) : Prop :=
  ∃ reply, .replied c reply ∈ w.history ∧ reply.moonRoom = some room

/-- The moon keys a connection presented. -/
def World.presentedRooms (w : World) (c : ConnectionHdl) : List Hash :=
  w.history.filterMap fun
    | .replied handle reply => if handle = c then reply.moonRoom else none
    | .destroyed _ => none

theorem mem_presentedRooms {w : World} {c : ConnectionHdl} {room : Hash} :
    room ∈ w.presentedRooms c ↔ Presented w c room := by
  simp only [World.presentedRooms, List.mem_filterMap, Presented]
  constructor
  · rintro ⟨e, he, hr⟩
    cases e with
    | destroyed r => cases hr
    | replied handle reply =>
      simp only at hr
      split_ifs at hr with hc
      exact ⟨reply, hc ▸ he, hr⟩
  · rintro ⟨reply, he, hr⟩
    exact ⟨_, he, by simpa using hr⟩

/-- The call does not present the moon key of a room when its connection has presented the moon key
of another one. -/
def OneMoonKey (w : World) : Call → Prop
  | .onMessage c message atRoom _ =>
    ∀ room ∈ w.server.presentedKey atRoom c message, ∀ room' ∈ w.presentedRooms c, room' = room
  | _ => True

instance (w : World) : (call : Call) → Decidable (OneMoonKey w call)
  | .onMessage c message atRoom _ => inferInstanceAs (Decidable (∀ room ∈
      w.server.presentedKey atRoom c message, ∀ room' ∈ w.presentedRooms c, room' = room))
  | .onOpen _ | .onClose _ | .getPackets _ => inferInstanceAs (Decidable True)

/-- The moon table notes exactly the rooms whose moon key an open connection presented, and they
are the rooms that exist. -/
structure MoonsNoted (w : World) : Prop where
  noted : ∀ c ∈ w.connected, ∀ room, Presented w c room ↔
    w.server.moonIdentifierToRoomMap.lookup (w.server.getIdentifier c) = some room
  rooms : ∀ room, room ∈ w.server.packetAccumulator.packets ↔
    ∃ i, w.server.moonIdentifierToRoomMap.lookup i = some room

variable {w w' : World}

theorem presented_congr {c : ConnectionHdl} {room : Hash}
    (h : ∀ reply, .replied c reply ∈ w'.history ↔ .replied c reply ∈ w.history) :
    Presented w' c room ↔ Presented w c room := by
  simp only [Presented, h]

theorem lookup_moon_eq_none_of_free (hi : w.server.Invariant w.connected) {i : UInt16}
    (hfree : i = 0 ∨ i ∉ w.server.reservedIdentifiers) :
    w.server.moonIdentifierToRoomMap.lookup i = none := by
  cases hl : w.server.moonIdentifierToRoomMap.lookup i with
  | none => rfl
  | some room =>
    obtain ⟨c, hc⟩ := hi.tables.moons i room hl
    rcases hfree with h0 | hnot
    · exact absurd h0 (hi.identifiers.ne_zero hc.2)
    · exact absurd ((hi.identifiers.reserved_iff i).2 ⟨_, hc.2⟩) hnot

theorem MoonsNoted.onOpen (h : MoonsNoted w) (hi : w.server.Invariant w.connected)
    (ho : w.Opened) {handle : ConnectionHdl} (hst : relay.next w (.onOpen handle) = some w') :
    MoonsNoted w' := by
  obtain ⟨hfresh, rfl⟩ := World.next_onOpen.1 hst
  refine ⟨fun c hc room => ?_, ?_⟩
  · rcases List.mem_cons.1 hc with rfl | hc
    · -- the new connection presented nothing, and its identifier was free
      have hnone : w.server.moonIdentifierToRoomMap.lookup
          ((w.server.onOpen c).getIdentifier c) = none := by
        refine lookup_moon_eq_none_of_free hi ?_
        rw [RelayServer.getIdentifier_onOpen hi.identifiers hfresh.2]
        by_cases h0 : RelayServer.claimLoop w.server.reservedIdentifiers (uint16Max - 1) = 0
        · exact .inl h0
        · exact .inr (RelayServer.claimLoop_ne_zero (by simp [uint16Max]) h0).1
      simp only [RelayServer.moons_onOpen, hnone, reduceCtorEq, iff_false]
      rintro ⟨reply, hr, -⟩
      exact hfresh.1 (ho.replied c reply hr)
    · have hid := RelayServer.getIdentifier_onOpen_of_ne (s := w.server) (hfresh.2 c hc)
      change Presented w c room ↔ (w.server.onOpen handle).moonIdentifierToRoomMap.lookup
        ((w.server.onOpen handle).getIdentifier c) = some room
      rw [RelayServer.moons_onOpen, hid]
      exact h.noted c hc room
  · simpa using h.rooms

theorem MoonsNoted.onClose (h : MoonsNoted w) (hi : w.server.Invariant w.connected)
    {handle : ConnectionHdl} (hst : relay.next w (.onClose handle) = some w') : MoonsNoted w' := by
  obtain ⟨hh, rfl⟩ := World.next_onClose.1 hst
  have hevent : ∀ c reply, .replied c reply ∈
      ((w.server.onClose handle).2.map Event.destroyed).toList ++ w.history ↔
      .replied c reply ∈ w.history := by
    simp
  have hmem : ∀ c, c ∈ w.connected.filter (fun c => c ≠ handle) ↔
      c ∈ w.connected ∧ c ≠ handle := by simp
  refine ⟨fun c hc room => ?_, fun room => ?_⟩
  · obtain ⟨hc, hne⟩ := (hmem c).1 hc
    rw [presented_congr (hevent c), h.noted c hc,
      RelayServer.getIdentifier_onClose_of_ne fun hp =>
        hne (hi.identifiers.pointers c hc handle hh hp), RelayServer.lookup_moons_onClose]
    split_ifs with he
    · -- the identifier can only be shared when neither has one
      have h0 : w.server.getIdentifier c = 0 := by
        by_contra h0
        exact hne (hi.identifiers.getIdentifier_inj hc hh h0 he)
      simp [lookup_moon_eq_none_of_free hi (.inl h0)]
    · exact Iff.rfl
  · rw [RelayServer.mem_packets_onClose, RelayServer.onClose_snd, Ne, RelayServer.eraseMoon_snd,
      h.rooms room]
    simp only [RelayServer.lookup_moons_onClose]
    constructor
    · rintro ⟨hnot, i, hl⟩
      by_cases hie : i = w.server.getIdentifier handle
      · -- the closing connection is not the last one
        have : ∃ j, j ≠ i ∧ w.server.moonIdentifierToRoomMap.lookup j = some room := by
          by_contra hall
          exact hnot ⟨hie ▸ hl, fun j hj hjl => hall ⟨j, hie ▸ hj, hjl⟩⟩
        obtain ⟨j, hj, hjl⟩ := this
        exact ⟨j, by rw [if_neg (hie ▸ hj), hjl]⟩
      · exact ⟨i, by rw [if_neg hie, hl]⟩
    · rintro ⟨i, hl⟩
      split_ifs at hl with hie
      exact ⟨fun hd => hd.2 i hie hl, i, hl⟩

/-- A message that presents no moon key leaves the moon table and the rooms as they are. -/
theorem tables_of_presentedKey_eq_none {s s' : RelayServer} {atRoom atLimit : KeyManager}
    {handle : ConnectionHdl} {message : List UInt8} {reply : Reply}
    (hr : s.MessageResult atRoom atLimit handle message s' reply)
    (hnone : reply.moonRoom = none) :
    s'.moonIdentifierToRoomMap = s.moonIdentifierToRoomMap ∧
      ∀ room, room ∈ s'.packetAccumulator.packets ↔ room ∈ s.packetAccumulator.packets := by
  cases hr with
  | oversizedMoon | acceptedMoon => simp [Reply.moonRoom] at hnone
  | acceptedPlayer =>
    exact ⟨rfl, fun room => PacketAccumulator.mem_packets_addPacket _ _ _ room⟩
  | _ => exact ⟨rfl, fun _ => Iff.rfl⟩

/-- A message that presents the moon key of a room notes the room and makes it exist. -/
theorem tables_of_presentedKey_eq_some {s s' : RelayServer} {atRoom atLimit : KeyManager}
    {handle : ConnectionHdl} {message : List UInt8} {reply : Reply} {room : Hash}
    (hr : s.MessageResult atRoom atLimit handle message s' reply)
    (hsome : reply.moonRoom = some room) :
    s.getIdentifier handle ≠ 0 ∧
    s'.moonIdentifierToRoomMap =
      s.moonIdentifierToRoomMap.insert (s.getIdentifier handle) room ∧
      ∀ r, r ∈ s'.packetAccumulator.packets ↔ r = room ∨ r ∈ s.packetAccumulator.packets := by
  cases hr with
  | oversizedMoon r h0 =>
    obtain rfl : r = room := by simpa [Reply.moonRoom] using hsome
    refine ⟨h0, RelayServer.moons_afterMoon _, fun r' => ?_⟩
    rw [RelayServer.packetAccumulator_afterMoon, PacketAccumulator.mem_packets_createRoom]
  | acceptedMoon r h0 =>
    obtain rfl : r = room := by simpa [Reply.moonRoom] using hsome
    refine ⟨h0, RelayServer.moons_afterMoon _, fun r' => ?_⟩
    rw [RelayServer.addPacket, PacketAccumulator.mem_packets_addPacket,
      RelayServer.packetAccumulator_afterMoon, PacketAccumulator.mem_packets_createRoom]
  | _ => simp [Reply.moonRoom] at hsome

theorem MoonsNoted.onMessage (h : MoonsNoted w) (hi : w.server.Invariant w.connected)
    {handle : ConnectionHdl} {message : List UInt8} {atRoom atLimit : KeyManager}
    (hok : OneMoonKey w (.onMessage handle message atRoom atLimit))
    (hst : relay.next w (.onMessage handle message atRoom atLimit) = some w') :
    MoonsNoted w' := by
  obtain ⟨hh, rfl⟩ := World.next_onMessage.1 hst
  have hr := RelayServer.onMessage_result w.server atRoom atLimit handle message
  set s' := (w.server.onMessage atRoom atLimit handle message).1
  set reply := (w.server.onMessage atRoom atLimit handle message).2
  have hids := RelayServer.getIdentifier_onMessage hr
  -- what has been presented after the call
  have hpresented : ∀ c room, Presented { w with
      server := s', history := Event.replied handle reply :: w.history } c room ↔
      (c = handle ∧ reply.moonRoom = some room) ∨ Presented w c room := by
    intro c room
    simp only [Presented, List.mem_cons, Event.replied.injEq]
    constructor
    · rintro ⟨r, ⟨rfl, rfl⟩ | hm, hr⟩
      · exact .inl ⟨rfl, hr⟩
      · exact .inr ⟨r, hm, hr⟩
    · rintro (⟨rfl, hr⟩ | ⟨r, hm, hr⟩)
      · exact ⟨_, .inl ⟨rfl, rfl⟩, hr⟩
      · exact ⟨r, .inr hm, hr⟩
  cases hm : reply.moonRoom with
  | none =>
    obtain ⟨hmoons, hrooms⟩ := tables_of_presentedKey_eq_none hr hm
    refine ⟨fun c hc room => ?_, fun room => ?_⟩
    · rw [hpresented, hm, hids, hmoons]
      simpa using h.noted c hc room
    · rw [hrooms, h.rooms, hmoons]
  | some room₀ =>
    obtain ⟨h0, hmoons, hrooms⟩ := tables_of_presentedKey_eq_some hr hm
    -- all that the connection presented before is the same room
    have hsame : ∀ room, Presented w handle room → room = room₀ := fun room hp =>
      hok room₀ (RelayServer.moonRoom_of_result hr ▸ hm) room (mem_presentedRooms.2 hp)
    refine ⟨fun c hc room => ?_, fun room => ?_⟩
    · rw [hpresented, hm, hids, hmoons, UnorderedMap.lookup_insert_eq]
      by_cases hch : c = handle
      · subst hch
        simp only [true_and, Option.some.injEq, if_true]
        exact ⟨fun hp => hp.elim id fun hp => (hsame room hp).symm, Or.inl⟩
      · have hne : w.server.getIdentifier c ≠ w.server.getIdentifier handle := fun he =>
          hch (hi.identifiers.getIdentifier_inj hc hh (he ▸ h0) he)
        simpa [hch, hne] using h.noted c hc room
    · rw [hrooms, h.rooms]
      simp only [hmoons, UnorderedMap.lookup_insert_eq]
      constructor
      · rintro (rfl | ⟨i, hl⟩)
        · exact ⟨_, if_pos rfl⟩
        · refine ⟨i, ?_⟩
          split_ifs with hie
          · -- an entry that is replaced named the same room
            rw [hie] at hl
            rw [hsame room ((h.noted handle hh room).2 hl)]
          · exact hl
      · rintro ⟨i, hl⟩
        split_ifs at hl with hie
        · exact .inl (Option.some.inj hl).symm
        · exact .inr ⟨i, hl⟩

theorem moonsNoted_of_reachable (h : (relay.restrict OneMoonKey).Reachable w) : MoonsNoted w := by
  refine (h.invariant (I := fun w => relay.Reachable w ∧ MoonsNoted w) ⟨.init, ?_⟩ ?_).2
  · constructor <;> simp [Machine.restrict, World.init, RelayServer.init, PacketAccumulator.init]
  rintro u call u' - ⟨hu, hn⟩ hst
  obtain ⟨hok, hst⟩ := Machine.restrict_next.1 hst
  have hi := invariant_of_reachable hu
  refine ⟨hu.step hst, ?_⟩
  cases call with
  | onOpen handle => exact hn.onOpen hi (opened_of_reachable hu) hst
  | onClose handle => exact hn.onClose hi hst
  | onMessage handle message atRoom atLimit => exact hn.onMessage hi hok hst
  | getPackets room =>
    obtain rfl := World.next_getPackets.1 hst
    refine ⟨hn.noted, fun r => ?_⟩
    simp only [RelayServer.takePackets, PacketAccumulator.mem_packets_getPackets]
    exact hn.rooms r

/-- **A room lives as long as its moon clients**, in every run in which no connection presents the
moon keys of two rooms. -/
theorem hasRoom_iff_presented (h : (relay.restrict OneMoonKey).Reachable w) (room : Hash) :
    w.server.hasRoom room = true ↔ ∃ c ∈ w.connected, Presented w c room := by
  have hn := moonsNoted_of_reachable h
  have hi := invariant_of_reachable (Machine.Reachable.of_restrict h)
  rw [RelayServer.hasRoom, PacketAccumulator.hasRoom_iff, hn.rooms]
  constructor
  · rintro ⟨i, hl⟩
    obtain ⟨c, hc⟩ := hi.tables.moons i room hl
    exact ⟨c, hc.1, (hn.noted c hc.1 room).2 (hc.getIdentifier ▸ hl)⟩
  · rintro ⟨c, hc, hp⟩
    exact ⟨_, (hn.noted c hc room).1 hp⟩

/-- The moon client of the run keeps its room. -/
theorem hasRoom_iff_presented_moonWorld :
    moonWorld.server.hasRoom moonKey = true ∧ ∃ c ∈ moonWorld.connected,
      Presented moonWorld c moonKey := by
  have hrun : (relay.restrict OneMoonKey).run World.init moonCalls = some moonWorld := by rfl
  exact ⟨by decide, (hasRoom_iff_presented (.of_run hrun) moonKey).1 (by decide)⟩

/-- A second pair of keys, "star" and "fans". -/
def twoTables : KeyManager :=
  ⟨moonTable.keys ++ [⟨⟨[115, 116, 97, 114], rfl⟩, ⟨[102, 97, 110, 115], rfl⟩, 3, by decide⟩]⟩

/-- One connection presents the moon keys of both rooms and closes. -/
def twoRoomCalls : List Call :=
  [.onOpen moonHandle, .onMessage moonHandle moonKey.bytes twoTables twoTables,
    .onMessage moonHandle [115, 116, 97, 114] twoTables twoTables, .onClose moonHandle]

/-- **The room of the first moon key is left behind** when a connection presents two and closes. -/
theorem not_hasRoom_iff_presented : ¬ ∀ w, relay.Reachable w → ∀ room,
    (w.server.hasRoom room = true ↔ ∃ c ∈ w.connected, Presented w c room) := by
  intro h
  obtain ⟨c, hc, -⟩ := (h ((relay.run relay.init twoRoomCalls).get (by decide))
    (.of_run (Option.some_get _).symm) moonKey).1 (by decide)
  have hnone : ((relay.run relay.init twoRoomCalls).get (by decide)).connected = [] := by decide
  rw [hnone] at hc
  cases hc

end MoonJamRelay
