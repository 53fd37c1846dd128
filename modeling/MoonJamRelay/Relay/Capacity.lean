import MoonJamRelay.Relay.Lifetime

/-!
# The capacity of a room

`onMessage` refuses a player when the room holds as many other connections as the player limit.
Moon clients are never refused, but they count.  Both results are about runs with a fixed key table.

* `capacity` : the connections registered in a room that were never accepted as its moon client are
  at most as many as the limit, and so is the whole list when a player joins.
* `Admitted`, `NotSurplus` : a player was accepted and its room not destroyed since; no such player
  would be refused for lack of places now.
* `JoinsInTime` : no moon client joins a full room with an admitted player in it.
* `notSurplus_iff_joinsInTime` : a run keeps its admitted players exactly when all its steps meet
  `JoinsInTime`.
* `not_notSurplus` : a second moon client makes a player surplus.
-/

namespace MoonJamRelay

/-- The call reads the key table `K` only. -/
def UsesTable (K : KeyManager) : Call → Prop
  | .onMessage _ _ atRoom atLimit => atRoom = K ∧ atLimit = K
  | _ => True

instance (K : KeyManager) : (call : Call) → Decidable (UsesTable K call)
  | .onMessage _ _ atRoom atLimit => inferInstanceAs (Decidable (atRoom = K ∧ atLimit = K))
  | .onOpen _ | .onClose _ | .getPackets _ => inferInstanceAs (Decidable True)

/-- The relay with a fixed key table. -/
def relayWith (K : KeyManager) : Machine World Call := relay.restrict fun _ call => UsesTable K call

variable {K : KeyManager} {w w' : World}

/-- The connections registered in a room of which no message was accepted under its moon key. -/
def World.players (w : World) (room : Hash) : List ReceivedConnection :=
  (w.server.packetAccumulator.registered room).filter fun entry =>
    .replied entry.handle (.accepted room true) ∉ w.history

/-- The bound that holds while the players come and go. -/
def WithinLimit (K : KeyManager) (w : World) : Prop :=
  ∀ room, (w.players room).length ≤ K.getPlayerLimit room

/-- A player that is accepted finds a place. -/
theorem length_registered_onMessage {s s' : RelayServer} {handle : ConnectionHdl}
    {message : List UInt8} {connected : List ConnectionHdl} (h : s.Tables connected) {room : Hash}
    (hr : s.MessageResult K K handle message s' (.accepted room false)) :
    (s'.packetAccumulator.registered room).length ≤ K.getPlayerLimit room := by
  rw [RelayServer.registered_onMessage h hr]
  cases hr with
  | acceptedPlayer _ _ _ _ _ _ hroom _ hlt =>
    rw [PacketAccumulator.getConnectionCountWithoutConnection,
      if_pos ((h.same_rooms room).1 hroom)] at hlt
    by_cases hc : PacketAccumulator.contains (s.getIdentifier handle)
        (s.packetAccumulator.registered room) = true
    · rw [if_pos hc] at hlt
      rw [if_neg fun hn => hn.2 hc]
      omega
    · rw [if_neg hc] at hlt
      rw [if_pos ⟨.inr rfl, hc⟩, List.length_append]
      exact hlt

theorem players_onMessage {s' : RelayServer} {reply : Reply} {handle : ConnectionHdl}
    {message : List UInt8} (h : w.server.Tables w.connected)
    (hr : w.server.MessageResult K K handle message s' reply) {room : Hash}
    (hne : reply ≠ .accepted room false) :
    (World.players { w with server := s', history := .replied handle reply :: w.history }
      room).Sublist (w.players room) := by
  -- who was a moon client stays one
  have hmono : ∀ entry : ReceivedConnection,
      decide (Event.replied entry.handle (.accepted room true) ∉
        Event.replied handle reply :: w.history) = true →
      decide (Event.replied entry.handle (.accepted room true) ∉ w.history) = true := by
    intro entry hd
    simp only [decide_eq_true_eq, List.mem_cons, not_or] at hd ⊢
    exact hd.2
  simp only [World.players]
  rw [RelayServer.registered_onMessage h hr]
  split_ifs with hnew
  · have hmoon : reply = .accepted room true := hnew.1.resolve_right hne
    have hlast : [(⟨w.server.getIdentifier handle, handle⟩ : ReceivedConnection)].filter
        (fun entry => .replied entry.handle (.accepted room true) ∉
          Event.replied handle reply :: w.history) = [] := by
      simp [hmoon]
    rw [List.filter_append, hlast, List.append_nil]
    exact List.monotone_filter_right _ hmono
  · exact List.monotone_filter_right _ hmono

theorem withinLimit_of_reachable (h : (relayWith K).Reachable w) : WithinLimit K w := by
  refine (h.invariant (I := fun w => relay.Reachable w ∧ WithinLimit K w) ⟨.init, ?_⟩ ?_).2
  · intro room
    simp [relayWith, Machine.restrict, World.init, World.players, RelayServer.init,
      PacketAccumulator.init, PacketAccumulator.registered]
  rintro u call u' - ⟨hu, hn⟩ hst
  obtain ⟨htable, hnext⟩ := Machine.restrict_next.1 hst
  clear hst
  refine ⟨hu.step hnext, fun room => ?_⟩
  have hi := (invariant_of_reachable hu).tables
  cases call with
  | onOpen handle =>
    obtain ⟨-, rfl⟩ := World.next_onOpen.1 hnext
    simpa [World.players] using hn room
  | onClose handle =>
    obtain ⟨-, rfl⟩ := World.next_onClose.1 hnext
    have hsub : ((u.server.onClose handle).1.packetAccumulator.registered room).Sublist
        (u.server.packetAccumulator.registered room) :=
      RelayServer.registered_onClose_sublist hi room
    simpa [World.players] using (hsub.filter _).length_le.trans (hn room)
  | onMessage handle message atRoom atLimit =>
    obtain ⟨rfl, rfl⟩ := htable
    obtain ⟨-, rfl⟩ := World.next_onMessage.1 hnext
    have hr := RelayServer.onMessage_result u.server atLimit atLimit handle message
    by_cases hp : (u.server.onMessage atLimit atLimit handle message).2 = .accepted room false
    · exact (List.length_filter_le _ _).trans (length_registered_onMessage hi (hp ▸ hr))
    · exact (players_onMessage hi hr hp).length_le.trans (hn room)
  | getPackets r =>
    obtain rfl := World.next_getPackets.1 hnext
    have hreg : (u.server.takePackets r).packetAccumulator.registered room =
        u.server.packetAccumulator.registered room := by
      simp [RelayServer.takePackets, PacketAccumulator.registered]
    simpa [World.players, hreg] using hn room

/-- **Player capacity.**  With a fixed table of distinct keys, at most as many connections as the
limit of a room are registered there without ever having been accepted under its moon key; and
when a message of a player is accepted, which registers it, the whole list has at most as many
entries. -/
theorem capacity {e : AccessKeys} (hd : K.Distinct) (he : e ∈ K.keys)
    (h : (relayWith K).Reachable w) :
    (w.players e.moonKey).length ≤ e.playerLimit ∧
    ∀ handle message w', (relayWith K).next w (.onMessage handle message K K) = some w' →
      (w.server.onMessage K K handle message).2 = .accepted e.moonKey false →
      (w'.server.packetAccumulator.registered e.moonKey).length ≤ e.playerLimit := by
  rw [← hd.getPlayerLimit_moonKey he]
  refine ⟨withinLimit_of_reachable h e.moonKey, fun handle message w' hst hreply => ?_⟩
  obtain ⟨-, hst⟩ := Machine.restrict_next.1 hst
  obtain ⟨-, rfl⟩ := World.next_onMessage.1 hst
  have hi := (invariant_of_reachable (Machine.Reachable.of_restrict h)).tables
  exact length_registered_onMessage hi
    (hreply ▸ RelayServer.onMessage_result w.server K K handle message)

/-- One of the two connections of the run is a player, and the limit is two. -/
theorem capacity_moonWorld : (moonWorld.players moonKey).length = 1 ∧
    (moonWorld.players moonKey).length ≤ 2 := by
  have hrun : (relayWith moonTable).run World.init moonCalls = some moonWorld := by rfl
  exact ⟨by decide, (capacity (e := ⟨moonKey, plebKey, 2, by decide⟩) (by decide)
    List.mem_cons_self (.of_run hrun)).1⟩

/-! ### Admitted players -/

/-- A message of the connection was accepted under the player key of the room, and the room has not
been destroyed since. -/
def Admitted (handle : ConnectionHdl) (room : Hash) : List Event → Prop
  | [] => False
  | .replied c reply :: history =>
    (c = handle ∧ reply = .accepted room false) ∨ Admitted handle room history
  | .destroyed r :: history => r ≠ room ∧ Admitted handle room history

/-- `Admitted` is decided along the history. -/
def decidableAdmitted (handle : ConnectionHdl) (room : Hash) :
    (history : List Event) → Decidable (Admitted handle room history)
  | [] => inferInstanceAs (Decidable False)
  | .replied c reply :: history =>
    have := decidableAdmitted handle room history
    inferInstanceAs (Decidable ((c = handle ∧ reply = .accepted room false) ∨
      Admitted handle room history))
  | .destroyed r :: history =>
    have := decidableAdmitted handle room history
    inferInstanceAs (Decidable (r ≠ room ∧ Admitted handle room history))

instance (handle : ConnectionHdl) (room : Hash) (history : List Event) :
    Decidable (Admitted handle room history) :=
  decidableAdmitted handle room history

/-- No admitted player would be told now that the server is full. -/
def NotSurplus (K : KeyManager) (w : World) : Prop :=
  ∀ handle ∈ w.connected, ∀ room, Admitted handle room w.history → ∀ message,
    (w.server.onMessage K K handle message).2 ≠ .full room

/-- A message under the moon key that is not too long may register its sender only while the limit
is not reached, unless no open connection is an admitted player of the room. -/
def JoinsInTime (K : KeyManager) (w : World) : Call → Prop
  | .onMessage handle message _ _ =>
    ∀ room ∈ w.server.presentedKey K handle message,
      message.length ≤ hashLength + maxPacketSize →
      ¬ PacketAccumulator.contains (w.server.getIdentifier handle)
        (w.server.packetAccumulator.registered room) →
      (∃ c ∈ w.connected, Admitted c room w.history) →
      (w.server.packetAccumulator.registered room).length < K.getPlayerLimit room
  | _ => True

theorem replied_of_admitted {c : ConnectionHdl} {room : Hash} {history : List Event}
    (h : Admitted c room history) : .replied c (.accepted room false) ∈ history := by
  induction history with
  | nil => exact h.elim
  | cons e history ih =>
    cases e with
    | replied d reply =>
      rcases h with ⟨rfl, rfl⟩ | h
      · exact List.mem_cons_self
      · exact List.mem_cons_of_mem _ (ih h)
    | destroyed r => exact List.mem_cons_of_mem _ (ih h.2)

theorem admitted_onClose {c : ConnectionHdl} {room : Hash} {destroyed : Option Hash}
    {history : List Event} :
    Admitted c room ((destroyed.map Event.destroyed).toList ++ history) ↔
      destroyed ≠ some room ∧ Admitted c room history := by
  cases destroyed <;> simp [Admitted]

/-- What keeps the place of an admitted player: its entry in the list, and the key it used. -/
structure Registration (K : KeyManager) (w : World) (c : ConnectionHdl) (room : Hash) : Prop where
  contains : PacketAccumulator.contains (w.server.getIdentifier c)
    (w.server.packetAccumulator.registered room) = true
  key : ∃ hash, K.getRoom hash = room ∧ room ≠ hash
  ne_empty : room ≠ Hash.empty

theorem contains_onMessage {s s' : RelayServer} {connected : List ConnectionHdl}
    (h : s.Tables connected) {handle : ConnectionHdl} {message : List UInt8} {reply : Reply}
    (hr : s.MessageResult K K handle message s' reply) {i : UInt16} {room : Hash}
    (hc : PacketAccumulator.contains i (s.packetAccumulator.registered room) = true) :
    PacketAccumulator.contains i (s'.packetAccumulator.registered room) = true := by
  rw [RelayServer.registered_onMessage h hr]
  split_ifs
  · obtain ⟨entry, he, hi⟩ := PacketAccumulator.contains_iff.1 hc
    exact PacketAccumulator.contains_iff.2 ⟨entry, List.mem_append_left _ he, hi⟩
  · exact hc

theorem Registration.of_accepted {handle : ConnectionHdl} {message : List UInt8}
    {s' : RelayServer} {room : Hash} {history : List Event}
    (h : w.server.Tables w.connected)
    (hr : w.server.MessageResult K K handle message s' (.accepted room false)) :
    Registration K { w with server := s', history := history } handle room := by
  refine ⟨?_, ?_, ?_⟩
  · rw [RelayServer.getIdentifier_onMessage hr, RelayServer.registered_onMessage h hr]
    split_ifs with hn
    · exact PacketAccumulator.contains_iff.2 ⟨_, List.mem_append_right _ List.mem_cons_self, rfl⟩
    · by_contra hc
      exact hn ⟨.inr rfl, hc⟩
  · cases hr with
    | acceptedPlayer _ _ _ hkey _ hne => exact ⟨_, hkey, hne⟩
  · cases hr with
    | acceptedPlayer _ _ _ _ hempty => exact hempty

theorem registration_of_reachable (h : (relayWith K).Reachable w) :
    ∀ c ∈ w.connected, ∀ room, Admitted c room w.history → Registration K w c room := by
  refine (h.invariant (I := fun w => relay.Reachable w ∧ ∀ c ∈ w.connected, ∀ room,
    Admitted c room w.history → Registration K w c room) ⟨.init, fun _ hc => nomatch hc⟩ ?_).2
  rintro u call u' - ⟨hu, hn⟩ hst
  obtain ⟨htable, hnext⟩ := Machine.restrict_next.1 hst
  clear hst
  refine ⟨hu.step hnext, fun c hc room ha => ?_⟩
  have hi := invariant_of_reachable hu
  cases call with
  | onOpen handle =>
    obtain ⟨hfresh, rfl⟩ := World.next_onOpen.1 hnext
    rcases List.mem_cons.1 hc with rfl | hc
    · -- a new connection was not admitted anywhere
      exact absurd ((opened_of_reachable hu).replied _ _ (replied_of_admitted ha)) hfresh.1
    · obtain ⟨hreg, hkey, hne⟩ := hn c hc room ha
      refine ⟨?_, hkey, hne⟩
      rw [RelayServer.packetAccumulator_onOpen,
        RelayServer.getIdentifier_onOpen_of_ne (hfresh.2 c hc)]
      exact hreg
  | onClose handle =>
    obtain ⟨hh, rfl⟩ := World.next_onClose.1 hnext
    obtain ⟨hdes, ha⟩ := admitted_onClose.1 ha
    simp only [List.mem_filter, decide_eq_true_eq] at hc
    obtain ⟨hreg, hkey, hne⟩ := hn c hc.1 room ha
    obtain ⟨entry, he, hid⟩ := PacketAccumulator.contains_iff.1 hreg
    have h0 : u.server.getIdentifier c ≠ 0 :=
      hid ▸ hi.identifiers.ne_zero (hi.tables.registered room entry he).2
    refine ⟨PacketAccumulator.contains_iff.2 ⟨entry, ?_, ?_⟩, hkey, hne⟩
    · rw [RelayServer.mem_registered_onClose hi.tables]
      exact ⟨hdes, he, fun h => hc.2 (hi.identifiers.getIdentifier_inj hc.1 hh h0 (hid ▸ h))⟩
    · rw [hid, RelayServer.getIdentifier_onClose_of_ne fun hp =>
        hc.2 (hi.identifiers.pointers c hc.1 handle hh hp)]
  | onMessage handle message atRoom atLimit =>
    obtain ⟨rfl, rfl⟩ := htable
    obtain ⟨-, rfl⟩ := World.next_onMessage.1 hnext
    have hr := RelayServer.onMessage_result u.server atLimit atLimit handle message
    rcases ha with ⟨rfl, hacc⟩ | ha
    · exact .of_accepted hi.tables (hacc ▸ hr)
    · obtain ⟨hreg, hkey, hne⟩ := hn c hc room ha
      refine ⟨?_, hkey, hne⟩
      rw [RelayServer.getIdentifier_onMessage hr]
      exact contains_onMessage hi.tables hr hreg
  | getPackets r =>
    obtain rfl := World.next_getPackets.1 hnext
    obtain ⟨hreg, hkey, hne⟩ := hn c hc room ha
    refine ⟨?_, hkey, hne⟩
    simpa [RelayServer.takePackets, PacketAccumulator.registered, RelayServer.getIdentifier]
      using hreg

/-- An admitted player is safe exactly while its room is within the limit. -/
theorem notSurplus_iff (h : (relayWith K).Reachable w) :
    NotSurplus K w ↔ ∀ c ∈ w.connected, ∀ room, Admitted c room w.history →
      (w.server.packetAccumulator.registered room).length ≤ K.getPlayerLimit room := by
  have hi := invariant_of_reachable (Machine.Reachable.of_restrict h)
  -- what `onMessage` counts for an admitted player
  have hcount : ∀ c ∈ w.connected, ∀ room, Admitted c room w.history →
      0 < (w.server.packetAccumulator.registered room).length ∧
      w.server.packetAccumulator.getConnectionCountWithoutConnection (w.server.getIdentifier c)
        room = (w.server.packetAccumulator.registered room).length - 1 := by
    intro c hc room ha
    have hreg := (registration_of_reachable h c hc room ha).contains
    obtain ⟨entry, he, -⟩ := PacketAccumulator.contains_iff.1 hreg
    refine ⟨List.length_pos_of_mem he, ?_⟩
    rw [PacketAccumulator.getConnectionCountWithoutConnection,
      if_pos (PacketAccumulator.mem_handles_of_registered he), if_pos hreg]
  constructor
  · intro hn c hc room ha
    obtain ⟨hreg, ⟨hash, hkey, hne⟩, hempty⟩ := registration_of_reachable h c hc room ha
    obtain ⟨entry, he, hid⟩ := PacketAccumulator.contains_iff.1 hreg
    have h0 : w.server.getIdentifier c ≠ 0 :=
      hid ▸ hi.identifiers.ne_zero (hi.tables.registered room entry he).2
    have hroom := (hi.tables.same_rooms room).2 (PacketAccumulator.mem_handles_of_registered he)
    obtain ⟨hpos, hcnt⟩ := hcount c hc room ha
    by_contra hgt
    have hlim : K.getPlayerLimit room ≤
        (w.server.packetAccumulator.registered room).length - 1 := by omega
    have hsize : ¬ hashLength + maxPacketSize < hashLength := by omega
    -- the player key alone is a message that would be refused
    refine hn c hc room ha hash.bytes ?_
    simp [RelayServer.onMessage, h0, hash.length_bytes, Hash.ofBytes_bytes, hkey, hne, hempty,
      RelayServer.addMoonIf, RelayServer.hasRoom, hroom, RelayServer.ensureRoom, hcnt, hsize, hlim]
  · intro hle c hc room ha message hfull
    have hr := RelayServer.onMessage_result w.server K K c message
    rw [hfull] at hr
    obtain ⟨hpos, hcnt⟩ := hcount c hc room ha
    have hroom := hle c hc room ha
    generalize (w.server.onMessage K K c message).1 = s' at hr
    cases hr with
    | full _ _ _ _ _ _ _ _ hlim => omega

theorem reply_eq_accepted_iff {s s' : RelayServer} {handle : ConnectionHdl} {message : List UInt8}
    {reply : Reply} {room : Hash} (hr : s.MessageResult K K handle message s' reply) :
    reply = .accepted room true ↔
      room ∈ s.presentedKey K handle message ∧ message.length ≤ hashLength + maxPacketSize := by
  rw [← RelayServer.moonRoom_of_result hr]
  cases hr with
  | oversizedMoon _ _ _ _ _ _ hsize => simpa [Reply.moonRoom] using fun _ => hsize
  | acceptedMoon _ _ _ _ _ _ hsize => simp [Reply.moonRoom, hsize]
  | _ => simp [Reply.moonRoom]

/-- Unless a moon client is accepted, a message keeps the rooms of admitted players in the limit. -/
theorem length_registered_le {s' : RelayServer} {handle : ConnectionHdl} {message : List UInt8}
    {reply : Reply} (h : w.server.Tables w.connected)
    (hn : ∀ c ∈ w.connected, ∀ room, Admitted c room w.history →
      (w.server.packetAccumulator.registered room).length ≤ K.getPlayerLimit room)
    (hr : w.server.MessageResult K K handle message s' reply) {c : ConnectionHdl}
    (hc : c ∈ w.connected) {room : Hash} (ha : Admitted c room (.replied handle reply :: w.history))
    (hne : reply ≠ .accepted room true) :
    (s'.packetAccumulator.registered room).length ≤ K.getPlayerLimit room := by
  by_cases hp : reply = .accepted room false
  · exact length_registered_onMessage h (hp ▸ hr)
  · rw [RelayServer.registered_onMessage h hr, if_neg fun hn => hn.1.elim hne hp]
    exact hn c hc room (ha.resolve_left fun hn => hp hn.2)

/-- A step keeps the admitted players safe exactly if it meets `JoinsInTime`. -/
theorem notSurplus_next {call : Call} (h : (relayWith K).Reachable w) (hn : NotSurplus K w)
    (hst : (relayWith K).next w call = some w') : NotSurplus K w' ↔ JoinsInTime K w call := by
  rw [notSurplus_iff (h.step hst)]
  rw [notSurplus_iff h] at hn
  have hreach := Machine.Reachable.of_restrict h
  have hi := invariant_of_reachable hreach
  obtain ⟨htable, hnext⟩ := Machine.restrict_next.1 hst
  cases call with
  | onOpen handle =>
    obtain ⟨hfresh, rfl⟩ := World.next_onOpen.1 hnext
    simp only [JoinsInTime, iff_true, RelayServer.packetAccumulator_onOpen]
    intro c hc room ha
    rcases List.mem_cons.1 hc with rfl | hc
    · exact absurd ((opened_of_reachable hreach).replied _ _ (replied_of_admitted ha)) hfresh.1
    · exact hn c hc room ha
  | onClose handle =>
    obtain ⟨-, rfl⟩ := World.next_onClose.1 hnext
    simp only [JoinsInTime, iff_true]
    intro c hc room ha
    exact (RelayServer.registered_onClose_sublist hi.tables room).length_le.trans
      (hn c (List.mem_filter.1 hc).1 room (admitted_onClose.1 ha).2)
  | getPackets r =>
    obtain rfl := World.next_getPackets.1 hnext
    simp only [JoinsInTime, iff_true]
    intro c hc room ha
    simpa [RelayServer.takePackets, PacketAccumulator.registered] using hn c hc room ha
  | onMessage handle message atRoom atLimit =>
    obtain ⟨rfl, rfl⟩ := htable
    obtain ⟨hh, rfl⟩ := World.next_onMessage.1 hnext
    have hr := RelayServer.onMessage_result w.server atLimit atLimit handle message
    have hreg := RelayServer.registered_onMessage hi.tables hr
    constructor
    · rintro hall room hkey hsize hnew ⟨c, hc, ha⟩
      have hacc := (reply_eq_accepted_iff hr).2 ⟨hkey, hsize⟩
      have hle := hall c hc room (.inr ha)
      rw [hreg, if_pos ⟨.inl hacc, hnew⟩, List.length_append] at hle
      exact hle
    · intro hjoin c hc room ha
      by_cases hacc : (w.server.onMessage atLimit atLimit handle message).2 = .accepted room true
      · -- the new entry, if there is one, fits
        have hold : Admitted c room w.history := ha.resolve_left (by simp [hacc])
        obtain ⟨hkey, hsize⟩ := (reply_eq_accepted_iff hr).1 hacc
        rw [hreg]
        split_ifs with hnew
        · rw [List.length_append]
          exact hjoin room hkey hsize hnew.2 ⟨c, hc, hold⟩
        · exact hn c hc room hold
      · exact length_registered_le hi.tables hn hr hc ha hacc

/-- **No admitted player is surplus**, in a run with a fixed table, exactly when no moon client
joins a full room with an admitted player in it. -/
theorem notSurplus_iff_joinsInTime {calls : List Call}
    (h : (relayWith K).run World.init calls = some w) :
    (relayWith K).Visits (NotSurplus K) World.init calls ↔
      (relayWith K).Meets (JoinsInTime K) World.init calls :=
  Machine.visits_iff_meets (fun _ _ _ hr hn hst => notSurplus_next hr hn hst) .init
    (fun _ hc => nomatch hc) h

/-- In the run of the two clients there is a place for the player. -/
theorem notSurplus_iff_joinsInTime_moonWorld :
    (relayWith moonTable).run World.init moonCalls = some moonWorld ∧
    ((relayWith moonTable).Visits (NotSurplus moonTable) World.init moonCalls ↔
      (relayWith moonTable).Meets (JoinsInTime moonTable) World.init moonCalls) :=
  ⟨by rfl, notSurplus_iff_joinsInTime (by rfl : (relayWith moonTable).run World.init moonCalls =
    some moonWorld)⟩

/-- A second moon client joins after the player. -/
def secondMoonCalls : List Call :=
  moonCalls ++ [.onOpen ⟨2, 16⟩, .onMessage ⟨2, 16⟩ moonKey.bytes moonTable moonTable]

/-- The world after `secondMoonCalls`. -/
def secondMoonWorld : World :=
  ((relayWith moonTable).run World.init secondMoonCalls).get (by decide)

/-- **The second moon client makes the player surplus**: its next message is refused. -/
theorem not_notSurplus : ¬ ∀ K w, (relayWith K).Reachable w → NotSurplus K w := fun h =>
  h moonTable secondMoonWorld (.of_run (Option.some_get _).symm) plebHandle (by decide) moonKey
    (by decide) plebKey.bytes (by decide)

end MoonJamRelay
