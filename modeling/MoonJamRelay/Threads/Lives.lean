import MoonJamRelay.Threads.Broadcast

/-!
# The lives of a room

A room is destroyed with its last moon client, and a later moon client may create it again.  The
packets that wait in the room are dropped when it is destroyed; those that a tick has taken are not,
and the tick lists the connections later.

* `Log.Gone` : the packet was accepted in an earlier life of the room.
* `Log.Settled` : the ticks of the earlier lives cannot reach the connection any more.
* `System.Registers` : the next step registers the connection; `registers_of_mem`.
* `kept_apart_of_settled` : a connection that is registered when the room is settled is sent no
  packet of an earlier life; `not_kept_apart` : in the run of `leakLabels` one is.
-/

namespace MoonJamRelay

namespace Log

variable {log pre post : List LogEntry} {room : Hash} {handle : ConnectionHdl} {p : Packet}

/-- The packet was accepted into the room before the room was destroyed. -/
def Gone (log : List LogEntry) (room : Hash) (p : Packet) : Prop :=
  ∃ pre lost post, log = pre ++ .destroyed room lost :: post ∧ p ∈ acceptedIn pre room

/-- Every tick that took its packets before the room was destroyed has copied the connections, and
has called `send` for the connection if it copied it. -/
def Settled (log : List LogEntry) (room : Hash) (handle : ConnectionHdl) : Prop :=
  ∀ pre lost post, log = pre ++ .destroyed room lost :: post →
    ∀ t n batch, .took t n room batch ∈ pre →
      ∃ connections, .listed t n connections ∈ log ∧
        ∀ i c, connections[i]? = some c → c.handle = handle → Sent log ⟨t, n, i⟩

/-- No packet of an earlier life of the room was sent to the connection after the log `log`. -/
def KeptApart (log log' : List LogEntry) (room : Hash) (handle : ConnectionHdl) : Prop :=
  ∃ post, log' = log ++ post ∧ ∀ p, Gone log room p →
    ∀ j c room' bytes parts delivered, .sent j c room' bytes parts delivered ∈ post →
      c.handle = handle → p ∉ parts

/-- A packet of an earlier life that is sent was taken before the room was destroyed. -/
theorem Valid.took_of_gone (h : Valid log) (hgone : Gone log room p) {j : Job}
    {c : ReceivedConnection} {room' : Hash} {bytes : List UInt8} {parts : List Packet}
    {delivered : Bool} (hsub : log ⊆ post) (hpost : Valid post)
    (hs : .sent j c room' bytes parts delivered ∈ post) (hp : p ∈ parts) :
    ∃ pre lost rest batch, log = pre ++ .destroyed room lost :: rest ∧
      .took j.thread j.tick room batch ∈ pre := by
  obtain ⟨batch, connections, hb, -, -, -, rfl⟩ := hpost.sent_spec hs
  have hpb : p ∈ batch := List.mem_of_mem_filter hp
  obtain ⟨pre, lost, rest, rfl, hpre⟩ := hgone
  have hin : pre ⊆ post := List.Subset.trans (List.subset_append_left _ _) hsub
  obtain ⟨registered, ha⟩ := mem_acceptedIn.1 hpre
  obtain ⟨registered', ha'⟩ := hpost.accepted_of_took hb hpb
  obtain ⟨rfl, -⟩ := hpost.accepted_unique (hin ha) ha' rfl
  -- the tick is the only entry that removed the packet
  have honly : ∀ e ∈ post, p ∈ e.removedFrom room → e = .took j.thread j.tick room batch :=
    fun e he hpe => hpost.eq_of_removed room he hb hpe (by simpa [LogEntry.removedFrom] using hpb)
  obtain ⟨hvalid, hrule⟩ := h.cut
  rw [hvalid.fate, List.mem_append] at hpre
  rcases hpre with hpre | hpre
  · rcases mem_removedFrom.1 hpre with ⟨lost', he, hl⟩ | ⟨t, n, batch', he, hl⟩
    · cases honly _ (hin he) (by simpa [LogEntry.removedFrom] using hl)
    · cases honly _ (hin he) (by simpa [LogEntry.removedFrom] using hl)
      exact ⟨pre, lost, rest, _, rfl, he⟩
  · -- a packet that waited was lost with the room
    cases hrule
    have he := hsub (List.mem_append_right pre List.mem_cons_self)
    cases honly _ he (by simpa [LogEntry.removedFrom] using hpre)

/-- **Once a room is settled for a connection, its earlier lives are over for it.** -/
theorem Valid.keptApart (h : Valid (log ++ post)) (hsettled : Settled log room handle) :
    KeptApart log (log ++ post) room handle := by
  refine ⟨post, rfl, fun p hgone j c room' bytes parts delivered hs hc hp => ?_⟩
  have hsub : log ⊆ log ++ post := List.subset_append_left _ _
  have hs' := List.mem_append_right log hs
  have hlog : Valid log := History.of_append h
  obtain ⟨pre, lost, rest, batch, hcut, hb⟩ := hlog.took_of_gone hgone hsub h hs' hp
  obtain ⟨connections, hl, hsent⟩ := hsettled pre lost rest hcut _ _ batch hb
  obtain ⟨-, connections', -, hl', hi, -, -⟩ := h.sent_spec hs'
  obtain rfl := h.listed_unique (hsub hl) hl'
  -- the job has called `send` before
  obtain ⟨c', room₁, bytes', parts', delivered', hm⟩ := hsent j.index c hi hc
  obtain ⟨post₁, post₂, rfl⟩ := List.append_of_mem hs
  rw [← List.append_assoc] at h
  exact (History.cut h.newKey).2 _ rfl _ (List.mem_append_left _ hm) rfl

end Log

open Log

namespace System

variable {keys : KeyManager} {s s' u : System} {room : Hash} {handle : ConnectionHdl}

/-! ### Registrations -/

/-- The next section of the relay thread adds the connection to the room in `m_handles`. -/
def Registers (s : System) (room : Hash) (handle : ConnectionHdl) : Prop :=
  ∃ r, s.relayPc = .registerHandle r ∧ s.owner .handle = some .relay ∧ r.room = room ∧
    r.handle = handle ∧ PacketAccumulator.contains r.identifier (s.accumulator.registered room) =
      false

theorem RelayStep.registers (hst : s.RelayStep s')
    (howner : ∀ m, s.relayPc.wants = some m → s.owner m = some .relay) {c : ReceivedConnection}
    (hc : c ∈ s'.accumulator.registered room) (hnew : c ∉ s.accumulator.registered room) :
    s.Registers room c.handle := by
  -- the other sections take connections away
  have hempty : ∀ {r : Hash}, c ∉ (if room = r then [] else s.accumulator.registered room) := by
    intro r
    split_ifs
    · exact List.not_mem_nil
    · exact hnew
  cases hst with
  | registerHandle r hpc =>
    have hc' : c ∈ (s.accumulator.registerHandle r.room r.identifier r.handle).registered room := hc
    rw [PacketAccumulator.registered_registerHandle] at hc'
    split_ifs at hc' with hif
    · obtain ⟨rfl, hid⟩ := hif
      rw [List.mem_append, List.mem_singleton] at hc'
      obtain rfl := hc'.resolve_left hnew
      exact ⟨r, hpc, howner .handle (by rw [hpc]; rfl), rfl, rfl, Bool.eq_false_iff.2 hid⟩
    · exact absurd hc' hnew
  | claimIdentifier =>
    rw [accumulator, RelayServer.packetAccumulator_claimIdentifier] at hc
    exact absurd hc hnew
  | eraseMoon | eraseLastMoon =>
    rw [accumulator, RelayServer.packetAccumulator_eraseMoon] at hc
    exact absurd hc hnew
  | releaseIdentifier =>
    rw [accumulator, RelayServer.packetAccumulator_releaseIdentifier] at hc
    exact absurd hc hnew
  | eraseHandles _ _ r =>
    exact absurd (PacketAccumulator.registered_eraseHandles room ▸ hc) hempty
  | insertHandles r =>
    exact absurd (PacketAccumulator.registered_insertHandles room ▸ hc) hempty
  | removeConnection handle identifier =>
    have hc' : c ∈ (s.accumulator.removeConnection identifier).registered room := hc
    rw [PacketAccumulator.registered_removeConnection] at hc'
    exact absurd (List.mem_of_mem_eraseP hc') hnew
  | appendPacket r =>
    exact absurd (PacketAccumulator.registered_appendPacket r.packet r.handle r.message room ▸ hc)
      hnew
  | _ => exact absurd hc hnew

/-- A step that adds a connection to a room is such a section. -/
theorem registers_of_mem {l : Label} (hst : (relaySystem keys).next s l = some s')
    {c : ReceivedConnection} (hc : c ∈ s'.accumulator.registered room)
    (hnew : c ∉ s.accumulator.registered room) : l = .relay ∧ s.Registers room c.handle := by
  have hsame : s'.accumulator.handles ≠ s.accumulator.handles := fun he => by
    rw [PacketAccumulator.registered, he] at hc
    exact hnew hc
  cases next_step hst with
  | call _ hcall => cases hcall <;> exact absurd rfl hsame
  | acquire => exact absurd rfl hsame
  | room t hroom => exact absurd hroom.connections.2.2.2.2.1 hsame
  | worker k hworker => cases hworker <;> exact absurd rfl hsame
  | relay hrelay howner => exact ⟨rfl, hrelay.registers howner hc hnew⟩

/-! ### The log grows -/

theorem RelayStep.log_prefix (hst : s.RelayStep s') : s.log <+: s'.log := by
  cases hst with
  | claimIdentifier | erasePackets | unknownKey | getRoom | appendPacket =>
    exact List.prefix_append _ _
  | _ => exact List.prefix_rfl

theorem log_prefix_of_next {l : Label} (hst : (relaySystem keys).next s l = some s') :
    s.log <+: s'.log := by
  cases next_step hst with
  | call _ hcall => cases hcall <;> exact List.prefix_rfl
  | acquire => exact List.prefix_rfl
  | relay hrelay => exact hrelay.log_prefix
  | room t hroom =>
    cases hroom with
    | getPackets | getConnections => exact List.prefix_append _ _
    | _ => exact List.prefix_rfl
  | worker k hworker =>
    cases hworker with
    | send => exact List.prefix_append _ _
    | _ => exact List.prefix_rfl

theorem log_prefix_of_reaches (h : (relaySystem keys).Reaches u s) : u.log <+: s.log :=
  h.invariant (I := fun s => u.log <+: s.log) List.prefix_rfl fun _ _ _ _ hp hst =>
    hp.trans (log_prefix_of_next hst)

end System

variable {keys : KeyManager} {u s : System} {room : Hash} {handle : ConnectionHdl}

/-- If the next step registers a connection, the room is settled for it. -/
def System.RegistersSettled (u : System) : Prop :=
  ∀ room handle, u.Registers room handle → Settled u.log room handle

/-- A room whose threads are between two ticks is settled for every connection. -/
theorem settled_of_outside (h : (relaySystem keys).Reachable u)
    (hout : ∀ t, (u.threads t).room = room → ¬ (u.threads t).pc.InTick) :
    Settled u.log room handle := by
  rintro pre lost post hcut t n batch hb
  have hb' : .took t n room batch ∈ u.log := hcut ▸ List.mem_append_left _ hb
  have hlogged := (System.ticks_of_reachable h).logged t
  have hnot := hout t (hlogged.took_le n room batch hb').1
  obtain ⟨connections, hl, hsent⟩ :=
    (hlogged.finished n room batch hb').resolve_left fun hin => hnot hin.2
  exact ⟨connections, hl, fun i c hi _ => hsent i (List.getElem?_eq_some_iff.1 hi).1⟩

/-- **The lives of a room stay apart if its ticks are over in time**, in every run: a connection for
which the room was settled when it was registered is never sent a packet of an earlier life. -/
theorem kept_apart_of_settled (hu : (relaySystem keys).Reachable u) (hok : u.RegistersSettled)
    (hs : (relaySystem keys).Reaches u s) :
    ∀ room handle, u.Registers room handle → KeptApart u.log s.log room handle := by
  intro room handle hr
  have hvalid := (System.recorded_of_reachable (Machine.Reaches.trans hu hs)).valid
  obtain ⟨post, hlog⟩ := System.log_prefix_of_reaches hs
  rw [← hlog] at hvalid ⊢
  exact hvalid.keptApart (hok room handle hr)

/-! ### A run in which a room lives twice -/

/-- The moon client and a player, who sends "hi", are in the room, and the room takes their
packets. -/
def takeLabels : List Label :=
  startLabels ++
    [.onOpen plebHandle, .relay, .relay, .onMessage plebHandle (plebKey.bytes ++ [104, 105])] ++
    List.replicate 16 .relay ++ List.replicate 4 (.room 0)

/-- The moon client alone is in the room, and the room has ticked once. -/
def tickLabels : List Label :=
  startLabels ++ List.replicate 6 (.room 0) ++ List.replicate 3 (.worker 0) ++
    List.replicate 4 (.room 0) ++ List.replicate 7 (.worker 0) ++ List.replicate 2 (.room 0)

/-- The moon client closes, and with it the room; another moon client creates the room again, and is
about to be registered. -/
def secondLifeLabels : List Label :=
  [.endSession moonHandle, .onClose moonHandle] ++ List.replicate 14 .relay ++
    [.onOpen ⟨2, 16⟩, .relay, .relay, .onMessage ⟨2, 16⟩ moonKey.bytes] ++ List.replicate 27 .relay

/-- The message that creates the room again. -/
def secondMoonRequest : SizedRequest :=
  ⟨⟨⟨2, 16⟩, moonKey.bytes, 65534, moonKey⟩, by decide⟩

/-- The old thread goes on with its tick. -/
def leakLabels : List Label :=
  .relay :: (List.replicate 2 (.room 0) ++ List.replicate 3 (.worker 0) ++
    List.replicate 4 (.room 0) ++ List.replicate 3 (.worker 0))

/-- The old thread begins its first tick in the second life. -/
def nextTickLabels : List Label := .relay :: List.replicate 5 (.room 0)

/-- The entry is the end of a life of the room. -/
def LogEntry.destroys (room : Hash) : LogEntry → Bool
  | .destroyed r _ => decide (r = room)
  | _ => false

/-- The entry sends the packet with this number to the connection. -/
def LogEntry.sends (handle : ConnectionHdl) (number : ℕ) : LogEntry → Bool
  | .sent _ c _ _ parts _ => decide (c.handle = handle) && parts.any fun p => p.number = number
  | _ => false

theorem gone_of_destroys {log : List LogEntry} {n : ℕ} {p : Packet}
    (h : log[n]?.any (LogEntry.destroys room) = true) (hp : p ∈ acceptedIn (log.take n) room) :
    Gone log room p := by
  obtain ⟨e, he, hd⟩ := (Option.any_eq_true _ _).1 h
  obtain ⟨hn, rfl⟩ := List.getElem?_eq_some_iff.1 he
  obtain ⟨lost, hlog⟩ : ∃ lost, log[n] = .destroyed room lost := by
    cases he' : log[n] <;> rw [he'] at hd <;>
      simp only [LogEntry.destroys, Bool.false_eq_true] at hd
    rename_i r lost
    exact ⟨lost, by rw [of_decide_eq_true hd]⟩
  refine ⟨log.take n, lost, log.drop (n + 1), ?_, hp⟩
  rw [← hlog, List.cons_getElem_drop_succ, List.take_append_drop]

theorem exists_of_sends {log : List LogEntry} {number : ℕ}
    (h : log.any (LogEntry.sends handle number) = true) :
    ∃ j c room bytes parts delivered, .sent j c room bytes parts delivered ∈ log ∧
      c.handle = handle ∧ ∃ p ∈ parts, p.number = number := by
  obtain ⟨e, he, hs⟩ := List.any_eq_true.1 h
  cases e <;> simp only [LogEntry.sends, Bool.false_eq_true] at hs
  obtain ⟨hc, hp⟩ := Bool.and_eq_true_iff.1 hs |>.imp of_decide_eq_true List.any_eq_true.1
  obtain ⟨p, hp, hn⟩ := hp
  exact ⟨_, _, _, _, _, _, he, hc, p, hp, of_decide_eq_true hn⟩

/-- The bytes "hi", which a player sent in the first life of the room, are sent to the moon client
of the second. -/
theorem exists_leak : ∃ u s, (relaySystem moonTable).Reachable u ∧ u.Registers moonKey ⟨2, 16⟩ ∧
    (relaySystem moonTable).Reaches u s ∧ ¬ KeptApart u.log s.log moonKey ⟨2, 16⟩ := by
  have hrun : ((relaySystem moonTable).run (.init moonTable) (takeLabels ++ secondLifeLabels)).any
      (fun u => decide (u.relayPc = .registerHandle secondMoonRequest ∧
          u.owner .handle = some .relay ∧
          PacketAccumulator.contains 65534 (u.accumulator.registered moonKey) = false ∧
          u.log[7]?.any (LogEntry.destroys moonKey) = true ∧
          (acceptedIn (u.log.take 7) moonKey).any (fun p => p.number = 1) = true) &&
        ((relaySystem moonTable).run u leakLabels).any fun s =>
          (s.log.drop u.log.length).any (LogEntry.sends ⟨2, 16⟩ 1)) = true := by
    decide +kernel
  obtain ⟨u, hu, hp⟩ := (Option.any_eq_true _ _).1 hrun
  obtain ⟨hu', hs'⟩ := Bool.and_eq_true_iff.1 hp
  obtain ⟨hpc, howner, hnew, hdestroyed, haccepted⟩ := of_decide_eq_true hu'
  obtain ⟨s, hs, hsends⟩ := (Option.any_eq_true _ _).1 hs'
  have hreach : (relaySystem moonTable).Reachable u := .of_run hu
  have hreaches := Machine.reaches_of_run hs
  refine ⟨u, s, hreach, ⟨_, hpc, howner, rfl, rfl, hnew⟩, hreaches, ?_⟩
  rintro ⟨post, hlog, hkept⟩
  rw [hlog, List.drop_left] at hsends
  obtain ⟨j, c, room, bytes, parts, delivered, hm, hc, p, hp, hn⟩ := exists_of_sends hsends
  obtain ⟨q, hq, hn'⟩ := List.any_eq_true.1 haccepted
  -- the packet that is sent is the packet of the first life
  have hvalid := (System.recorded_of_reachable (Machine.Reaches.trans hreach hreaches)).valid
  have hsub : u.log ⊆ s.log := hlog ▸ List.subset_append_left _ _
  obtain ⟨batch, connections, hb, -, -, -, rfl⟩ :=
    hvalid.sent_spec (hlog ▸ List.mem_append_right u.log hm)
  obtain ⟨registered, ha⟩ := hvalid.accepted_of_took hb (List.mem_of_mem_filter hp)
  obtain ⟨registered', ha'⟩ := mem_acceptedIn.1 hq
  obtain ⟨-, rfl, -⟩ := hvalid.accepted_unique ha (hsub (List.mem_of_mem_take ha'))
    (hn.trans (of_decide_eq_true hn').symm)
  exact hkept p (gone_of_destroys hdestroyed hq) _ _ _ _ _ _ hm hc hp

/-- The tick of the first life is over when the second moon client is registered. -/
theorem kept_apart_of_tick : ∃ u s, (relaySystem moonTable).Reachable u ∧
    u.Registers moonKey ⟨2, 16⟩ ∧ (∃ p, Gone u.log moonKey p) ∧
    (relaySystem moonTable).Reaches u s ∧ (∃ room batch, .took 0 2 room batch ∈ s.log) ∧
    KeptApart u.log s.log moonKey ⟨2, 16⟩ := by
  have hrun : ((relaySystem moonTable).run (.init moonTable) (tickLabels ++ secondLifeLabels)).any
      (fun u => decide (u.relayPc = .registerHandle secondMoonRequest ∧
          u.owner .handle = some .relay ∧
          PacketAccumulator.contains 65534 (u.accumulator.registered moonKey) = false ∧
          u.log[6]?.any (LogEntry.destroys moonKey) = true ∧
          acceptedIn (u.log.take 6) moonKey ≠ [] ∧ u.spawned = 1 ∧ (u.threads 0).pc = .sleep) &&
        ((relaySystem moonTable).run u nextTickLabels).any fun s =>
          decide ((s.threads 0).pc = .getConnections ∧ (s.threads 0).tick = 2)) = true := by
    decide +kernel
  obtain ⟨u, hu, hp⟩ := (Option.any_eq_true _ _).1 hrun
  obtain ⟨hu', hs'⟩ := Bool.and_eq_true_iff.1 hp
  obtain ⟨hpc, howner, hnew, hdestroyed, haccepted, hspawned, hsleep⟩ := of_decide_eq_true hu'
  obtain ⟨s, hs, hp'⟩ := (Option.any_eq_true _ _).1 hs'
  obtain ⟨hpc', htick⟩ := of_decide_eq_true hp'
  have hreach : (relaySystem moonTable).Reachable u := .of_run hu
  have hreaches := Machine.reaches_of_run hs
  have hr : u.Registers moonKey ⟨2, 16⟩ := ⟨_, hpc, howner, rfl, rfl, hnew⟩
  obtain ⟨p, hp⟩ := List.exists_mem_of_ne_nil _ haccepted
  have htook := ((System.ticks_of_reachable (Machine.Reaches.trans hreach hreaches)).logged 0).took
    (by rw [hpc']; trivial)
  have hout : ∀ t, ¬ (u.threads t).pc.InTick := by
    intro t
    rcases Nat.eq_zero_or_pos t with rfl | ht
    · rw [hsleep]
      exact id
    · rw [System.spawned_of_reachable hreach t (hspawned ▸ ht)]
      exact id
  exact ⟨u, s, hreach, hr, ⟨p, gone_of_destroys hdestroyed hp⟩, hreaches, ⟨_, _, htick ▸ htook⟩,
    kept_apart_of_settled hreach (fun room handle _ => settled_of_outside hreach fun t _ => hout t)
      hreaches moonKey ⟨2, 16⟩ hr⟩

/-- **Packets of one life of a room can reach the next.** -/
theorem not_kept_apart : ¬ ∀ keys u s, (relaySystem keys).Reachable u →
    (relaySystem keys).Reaches u s →
    ∀ room handle, u.Registers room handle → KeptApart u.log s.log room handle := by
  intro h
  obtain ⟨u, s, hu, hr, hs, hnot⟩ := exists_leak
  exact hnot (h moonTable u s hu hs moonKey ⟨2, 16⟩ hr)

end MoonJamRelay
