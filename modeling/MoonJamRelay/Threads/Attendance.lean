import MoonJamRelay.Threads.Broadcast
import MoonJamRelay.Threads.Handlers
import MoonJamRelay.Threads.Served

/-!
# For whom a packet is

A packet is for the connections that are registered in its room when it is accepted. A registration
stays until its connection ends or its room is destroyed, so that the tick that takes the packet
lists them all.

* `Log.Attends` : the connection was registered when the packet was accepted, and the room was not
  destroyed since.
* `System.Attended` : the invariant.
* `attended_of_reachable` : the invariant holds in every reachable state.
-/

namespace MoonJamRelay

namespace Log

variable {log : List LogEntry} {room : Hash} {p : Packet} {e : ReceivedConnection} {x : LogEntry}

/-- The packet was accepted into the room when the connection was registered in it, and the room was
not destroyed since. -/
def Attends (log : List LogEntry) (room : Hash) (p : Packet) (e : ReceivedConnection) : Prop :=
  ∃ pre registered post, log = pre ++ .accepted room p registered :: post ∧ e ∈ registered ∧
    ∀ lost, .destroyed room lost ∉ post

theorem Attends.accepted (h : Attends log room p e) :
    ∃ registered, .accepted room p registered ∈ log ∧ e ∈ registered := by
  obtain ⟨pre, registered, post, rfl, he, -⟩ := h
  exact ⟨registered, List.mem_append_right _ List.mem_cons_self, he⟩

theorem attends_snoc (h : Attends (log ++ [x]) room p e) :
    (∃ registered, x = .accepted room p registered ∧ e ∈ registered) ∨
      Attends log room p e ∧ ∀ lost, x ≠ .destroyed room lost := by
  obtain ⟨pre, registered, post, hlog, he, hd⟩ := h
  rcases List.eq_nil_or_concat post with rfl | ⟨post, y, rfl⟩
  · obtain ⟨-, hx⟩ := List.append_inj' hlog rfl
    exact .inl ⟨registered, List.singleton_inj.1 hx, he⟩
  · rw [List.concat_eq_append, ← List.cons_append, ← List.append_assoc] at hlog
    obtain ⟨hlog', hx⟩ := List.append_inj' hlog rfl
    refine .inr ⟨⟨pre, registered, post, hlog', he, fun lost hm => hd lost ?_⟩,
      fun lost hlost => ?_⟩
    · rw [List.concat_eq_append]
      exact List.mem_append_left _ hm
    · refine hd lost ?_
      rw [List.concat_eq_append, ← hlost, List.singleton_inj.1 hx]
      exact List.mem_append_right _ (List.mem_singleton_self _)

/-- A registered connection was opened, and shares no identifier with another sender. -/
theorem Valid.attends (h : Valid log) (ha : Attends log room p e) :
    .opened e.handle e.identifier ∈ log ∧
      (e.handle ≠ p.sender → e.identifier ≠ p.identifier) := by
  obtain ⟨registered, hm, he⟩ := ha.accepted
  obtain ⟨pre, hsub, -, hr⟩ := h.of_mem hm
  cases hr with
  | accepted _ _ _ _ _ _ _ _ hopened hother => exact ⟨hsub (hopened e he), hother e he⟩

/-- A packet that left its room, which was not destroyed, was taken by a tick. -/
theorem Valid.took_of_attends (h : Valid log) (ha : Attends log room p e)
    (hp : p ∉ pending log room) : ∃ t n batch, .took t n room batch ∈ log ∧ p ∈ batch := by
  obtain ⟨registered, hm, -⟩ := ha.accepted
  have hin : p ∈ acceptedIn log room := mem_acceptedIn.2 ⟨registered, hm⟩
  rw [h.fate] at hin
  rcases mem_removedFrom.1 ((List.mem_append.1 hin).resolve_right hp) with
    ⟨lost, hd, hlost⟩ | htook
  · -- what was destroyed before had been accepted before
    exfalso
    obtain ⟨pre, registered, post, rfl, -, hnone⟩ := ha
    have hpre : .destroyed room lost ∈ pre := by
      rcases List.mem_append.1 hd with hd | hd
      · exact hd
      · rcases List.mem_cons.1 hd with hd | hd
        · cases hd
        · exact absurd hd (hnone lost)
    obtain ⟨pre', hsub, hpre', hr⟩ := (h.cut).1.of_mem hpre
    have hbefore : p ∈ acceptedIn pre room := by
      cases hr with
      | destroyed _ =>
        have hmem : p ∈ acceptedIn pre' room := by
          rw [hpre'.fate]
          exact List.mem_append_right _ hlost
        obtain ⟨registered', hm'⟩ := mem_acceptedIn.1 hmem
        exact mem_acceptedIn.2 ⟨registered', hsub hm'⟩
    have hnodup := h.nodup_acceptedIn room
    rw [acceptedIn, List.flatMap_append, List.flatMap_cons] at hnodup
    refine (List.nodup_append.1 hnodup).2.2 p hbefore p (List.mem_append_left _ ?_) rfl
    simp [LogEntry.acceptedIn]
  · exact htook

end Log

/-- The room whose connections are about to be cleared. -/
def RelayPc.emptied : RelayPc → Option Hash
  | eraseHandles _ _ room => some room
  | insertHandles r => some r.room
  | _ => none

theorem RelayPc.emptied_checkSize (r : Request) : r.checkSize.emptied = none := by
  rw [Request.checkSize]
  split_ifs <;> rfl

/-- An entry that tells neither of a packet nor of a tick. -/
def LogEntry.Other : LogEntry → Prop
  | .opened .. | .resolved .. | .destroyed .. => True
  | _ => False

namespace System

open Log

variable {keys : KeyManager} {s s' : System}

/-- The registrations last, and the ticks go by them. -/
structure Attended (s : System) : Prop where
  /-- Nobody attends a room that does not exist, or whose connections are about to be cleared. -/
  empty : ∀ room p e, room ∉ s.accumulator.packets ∨ s.relayPc.emptied = some room →
    ¬ Attends s.log room p e
  registered : ∀ room p e, Attends s.log room p e → e.handle ∈ s.sessions →
    e ∈ s.accumulator.registered room
  ending : ∀ h, s.relayPc.ending = some h → h ∉ s.sessions
  listed : ∀ t n connections room batch p e, .listed t n connections ∈ s.log →
    .took t n room batch ∈ s.log → p ∈ batch → Attends s.log room p e → e.handle ∈ s.sessions →
      e ∈ connections
  undelivered : ∀ j c room bytes parts, .sent j c room bytes parts false ∈ s.log →
    c.handle ∉ s.sessions

theorem attended_init : (System.init keys).Attended where
  empty _ _ _ _ h := by
    obtain ⟨_, hm, -⟩ := h.accepted
    cases hm
  registered _ _ _ h := by
    obtain ⟨_, hm, -⟩ := h.accepted
    cases hm
  ending _ h := nomatch h
  listed _ _ _ _ _ _ _ h := nomatch h
  undelivered _ _ _ _ _ h := nomatch h

/-- Steps that tell of no packet and no tick, and open no session. -/
theorem Attended.frame (h : s.Attended)
    (hlog : s'.log = s.log ∨ ∃ x, s'.log = s.log ++ [x] ∧ x.Other)
    (hempty : ∀ room p e, room ∉ s'.accumulator.packets ∨ s'.relayPc.emptied = some room →
      ¬ Attends s'.log room p e)
    (hregistered : ∀ room p e, Attends s'.log room p e → e.handle ∈ s'.sessions →
      e ∈ s.accumulator.registered room → e ∈ s'.accumulator.registered room)
    (hsessions : s'.sessions ⊆ s.sessions)
    (hending : ∀ h, s'.relayPc.ending = some h → h ∉ s'.sessions) : s'.Attended := by
  have hattends : ∀ room p e, Attends s'.log room p e → Attends s.log room p e := by
    intro room p e ha
    rcases hlog with hlog | ⟨x, hlog, hx⟩
    · exact hlog ▸ ha
    · rw [hlog] at ha
      rcases attends_snoc ha with ⟨registered, rfl, -⟩ | ⟨ha, -⟩
      · exact hx.elim
      · exact ha
  have hmem : ∀ y ∈ s'.log, ¬ y.Other → y ∈ s.log := by
    intro y hy hother
    rcases hlog with hlog | ⟨x, hlog, hx⟩
    · exact hlog ▸ hy
    · rw [hlog, List.mem_append, List.mem_singleton] at hy
      exact hy.resolve_right fun he => hother (he ▸ hx)
  exact ⟨hempty, fun room p e ha hs =>
      hregistered room p e ha hs (h.registered room p e (hattends room p e ha) (hsessions hs)),
    hending, fun t n connections room batch p e hl hb hp ha hs =>
      h.listed t n connections room batch p e (hmem _ hl id) (hmem _ hb id) hp
        (hattends room p e ha) (hsessions hs),
    fun j c room bytes parts hsent hs =>
      h.undelivered j c room bytes parts (hmem _ hsent id) (hsessions hs)⟩

/-! ### The sections of the relay thread -/

theorem Attended.ending_of_step (h : s.Attended) (hst : s.RelayStep s')
    (hsessions : s'.sessions ⊆ s.sessions) :
    ∀ g, s'.relayPc.ending = some g → g ∉ s'.sessions := by
  intro g hg hs
  rcases hst.stays with ⟨_, -, -, -, hidle⟩ | ⟨_, -, -, -, hidle⟩ | ⟨-, -, hstays⟩
  · rw [hidle] at hg
    cases hg
  · rw [hidle] at hg
    cases hg
  · exact h.ending g (hstays.ending g hg) (hsessions hs)

theorem Attended.same (h : s.Attended) (hst : s.RelayStep s') (hsessions : s'.sessions ⊆ s.sessions)
    (hlog : s'.log = s.log ∨ ∃ x, s'.log = s.log ++ [x] ∧ x.Other)
    (hacc : s'.accumulator = s.accumulator) (hpc : s'.relayPc.emptied = none) : s'.Attended := by
  refine h.frame hlog (fun room p e hroom ha => ?_) (fun _ _ _ _ _ he => hacc ▸ he) hsessions
    (h.ending_of_step hst hsessions)
  rw [hacc, hpc] at hroom
  refine h.empty room p e (.inl (hroom.resolve_right (by simp))) ?_
  rcases hlog with hlog | ⟨x, hlog, hx⟩
  · exact hlog ▸ ha
  · rw [hlog] at ha
    rcases attends_snoc ha with ⟨registered, rfl, -⟩ | ⟨ha, -⟩
    · exact hx.elim
    · exact ha

/-- The registrations of the rooms that exist are kept, and so are the rooms. -/
theorem Attended.keep (h : s.Attended) (hst : s.RelayStep s') (hlog : s'.log = s.log)
    (hsessions : s'.sessions = s.sessions) (hpc : s'.relayPc.emptied = none)
    (hpackets : ∀ room, room ∈ s.accumulator.packets → room ∈ s'.accumulator.packets)
    (hregistered : ∀ room p e, Attends s.log room p e → e.handle ∈ s.sessions →
      e ∈ s.accumulator.registered room → e ∈ s'.accumulator.registered room) : s'.Attended := by
  have hsub : s'.sessions ⊆ s.sessions := hsessions ▸ List.Subset.refl _
  refine h.frame (.inl hlog) (fun room p e hroom ha => h.empty room p e (.inl fun hm => ?_)
    (hlog ▸ ha)) (fun room p e ha hs => hregistered room p e (hlog ▸ ha) (hsub hs)) hsub
    (h.ending_of_step hst hsub)
  exact (hroom.resolve_right (by simp [hpc])) (hpackets room hm)

theorem Attended.erasePackets (h : s.Attended) {room : Hash} {lost : List Packet}
    (hst : s.RelayStep s') (hlog : s'.log = s.log ++ [.destroyed room lost])
    (hacc : s'.accumulator = s.accumulator.erasePackets room) (hsessions : s'.sessions = s.sessions)
    (hpc : s'.relayPc.emptied = some room) : s'.Attended := by
  have hsub : s'.sessions ⊆ s.sessions := hsessions ▸ List.Subset.refl _
  refine h.frame (.inr ⟨_, hlog, trivial⟩) (fun room' p e hroom' ha => ?_)
    (fun _ _ _ _ _ he => hacc ▸ he) hsub (h.ending_of_step hst hsub)
  rw [hlog] at ha
  rcases attends_snoc ha with ⟨_, hx, -⟩ | ⟨ha, hne⟩
  · cases hx
  · have hne' : room' ≠ room := fun he => hne _ (by rw [he])
    refine h.empty room' p e (.inl fun hm => ?_) ha
    rcases hroom' with hroom' | hroom'
    · rw [hacc] at hroom'
      exact hroom' (AList.mem_erase.2 ⟨hne', hm⟩)
    · exact hne' (Option.some.inj (hroom'.symm.trans hpc))

/-- `removeConnection`: the connection has left the sessions. -/
theorem Attended.mem_removeConnection (h : s.Attended) (hr : (relaySystem keys).Reachable s)
    {handle : ConnectionHdl} {identifier : UInt16} {room : Hash} {e : ReceivedConnection}
    (hpc : s.relayPc = .removeConnection handle identifier) (hs : e.handle ∈ s.sessions)
    (he : e ∈ s.accumulator.registered room) :
    e ∈ (s.accumulator.removeConnection identifier).registered room := by
  have hreg := registered_of_reachable hr
  have hidentifiers := (handling_of_reachable hr).identifiers
  rw [PacketAccumulator.registered_removeConnection,
    PacketAccumulator.mem_eraseP_identifier (hreg.nodup room)]
  refine ⟨he, fun hid => h.ending handle (by rw [hpc]; rfl) ?_⟩
  -- the identifier belongs to one connection
  obtain ⟨hconnected, hlookup⟩ := hreg.owns room e he
  have hrunning := (handling_of_reachable hr).running handle (by rw [hpc]; rfl)
  have hfound := (handling_of_reachable hr).found handle identifier (by rw [hpc]; rfl)
  have hne : s.server.getIdentifier handle ≠ 0 := by
    rw [← hfound, ← hid]
    exact hidentifiers.ne_zero hlookup
  have hlookup' := RelayServer.lookup_of_getIdentifier_ne_zero hne
  rw [← hfound, ← hid] at hlookup'
  obtain rfl := hidentifiers.pointers _ hconnected _ hrunning
    (hidentifiers.injective _ _ _ hlookup hlookup')
  exact hs

/-- `addPacket`: the connections that are registered attend the new packet. -/
theorem Attended.appendPacket (h : s.Attended) (hr : (relaySystem keys).Reachable s)
    {r : SizedRequest} (hst : s.RelayStep s') (hroom : r.room ∈ s.accumulator.packets)
    (hlog : s'.log =
      s.log ++ [.accepted r.room (s.newPacket r) (s.accumulator.registered r.room)])
    (hacc : s'.accumulator = s.accumulator.appendPacket r.room r.packet r.handle r.message)
    (hsessions : s'.sessions = s.sessions) (hpc : s'.relayPc.emptied = none) : s'.Attended := by
  have hrecorded := recorded_of_reachable hr
  have hsub : s'.sessions ⊆ s.sessions := hsessions ▸ List.Subset.refl _
  have hold : ∀ x ∈ s'.log, (∀ room q registered, x ≠ .accepted room q registered) → x ∈ s.log := by
    intro x hx hother
    rw [hlog] at hx
    exact (List.mem_append.1 hx).resolve_right fun he => hother _ _ _ (List.mem_singleton.1 he)
  refine ⟨fun room' p e hroom' ha => ?_, fun room' p e ha hs => ?_, h.ending_of_step hst hsub,
    fun t n connections room' batch p e hl hb hp ha hs => ?_,
    fun j c room' bytes parts hsent hs =>
      h.undelivered j c room' bytes parts (hold _ hsent (by simp)) (hsub hs)⟩
  · have hno : room' ∉ s.accumulator.packets := fun hm => (hroom'.resolve_right (by simp [hpc]))
      (hacc ▸ (PacketAccumulator.mem_appendPacket r.packet r.handle r.message room').2 hm)
    rw [hlog] at ha
    rcases attends_snoc ha with ⟨_, hx, -⟩ | ⟨ha, -⟩
    · cases hx
      exact hno hroom
    · exact h.empty room' p e (.inl hno) ha
  · rw [hacc, PacketAccumulator.registered_appendPacket]
    rw [hlog] at ha
    rcases attends_snoc ha with ⟨_, hx, he⟩ | ⟨ha, -⟩
    · cases hx
      exact he
    · exact h.registered room' p e ha (hsub hs)
  · have hb := hold _ hb (by simp)
    rw [hlog] at ha
    rcases attends_snoc ha with ⟨_, hx, he⟩ | ⟨ha, -⟩
    · -- the packet is new
      cases hx
      obtain ⟨registered, hm⟩ := hrecorded.valid.accepted_of_took hb hp
      exact absurd (hrecorded.accepted _ _ _ hm) (Nat.lt_irrefl _)
    · exact h.listed t n connections room' batch p e (hold _ hl (by simp)) hb hp ha (hsub hs)

theorem RelayStep.attended (h : s.Attended) (hr : (relaySystem keys).Reachable s)
    (hst : s.RelayStep s') : s'.Attended := by
  have hrefl : s.sessions ⊆ s.sessions := List.Subset.refl _
  have hfilter : ∀ g, s.sessions.filter (fun c => c ≠ g) ⊆ s.sessions :=
    fun g c hc => (List.mem_filter.1 hc).1
  -- nobody attends a room whose connections are about to be cleared
  have hemptied : ∀ room room' p e, s.relayPc.emptied = some room → Attends s.log room' p e →
      room' ≠ room := by
    rintro room _ p e hpc ha rfl
    exact h.empty _ p e (.inr hpc) ha
  have hstep := hst
  cases hst with
  | goto pc hg =>
    refine h.same hstep hrefl (.inl rfl) rfl ?_
    cases hg with
    | hasRoom r | oldRoom r | oldThread r => exact RelayPc.emptied_checkSize r
    | _ => rfl
  | claimIdentifier handle hpc =>
    exact h.same hstep hrefl (.inr ⟨_, rfl, trivial⟩)
      RelayServer.packetAccumulator_claimIdentifier rfl
  | eraseMoon | eraseLastMoon =>
    exact h.same hstep hrefl (.inl rfl) RelayServer.packetAccumulator_eraseMoon rfl
  | erasePackets => exact h.erasePackets hstep rfl rfl rfl rfl
  | eraseHandles handle identifier room hpc =>
    refine h.keep hstep rfl rfl rfl (fun _ hm => hm) fun room' p e ha _ he => ?_
    change e ∈ (s.accumulator.eraseHandles room).registered room'
    rwa [PacketAccumulator.registered_eraseHandles,
      if_neg (hemptied room room' p e (by rw [hpc]; rfl) ha)]
  | removeConnection handle identifier hpc =>
    exact h.keep hstep rfl rfl rfl (fun _ hm => hm)
      fun room p e _ hs he => h.mem_removeConnection hr hpc hs he
  | releaseIdentifier =>
    exact h.same hstep hrefl (.inl rfl) RelayServer.packetAccumulator_releaseIdentifier rfl
  | tooShort handle => exact h.same hstep (hfilter handle) (.inl rfl) rfl rfl
  | unknownKey handle => exact h.same hstep (hfilter handle) (.inr ⟨_, rfl, trivial⟩) rfl rfl
  | noRoom r | full r => exact h.same hstep (hfilter r.handle) (.inl rfl) rfl rfl
  | getRoom handle message identifier r pc hpc hreq hne hcase =>
    refine h.same hstep hrefl (.inr ⟨_, rfl, trivial⟩) rfl ?_
    obtain ⟨rfl, -⟩ | ⟨rfl, -⟩ := hcase <;> rfl
  | insertPackets r hpc hroom =>
    refine h.frame (.inl rfl) (fun room' p e hroom' => h.empty room' p e (.inl ?_))
      (fun _ _ _ _ _ he => he) hrefl (h.ending_of_step hstep hrefl)
    rcases hroom' with hroom' | hroom'
    · exact fun hm => hroom' ((AList.mem_insert _).2 (.inr hm))
    · exact (Option.some.inj hroom') ▸ hroom
  | insertHandles r hpc =>
    refine h.keep hstep rfl rfl rfl (fun _ hm => hm) fun room' p e ha _ he => ?_
    change e ∈ (s.accumulator.insertHandles r.room).registered room'
    rwa [PacketAccumulator.registered_insertHandles,
      if_neg (hemptied r.room room' p e (by rw [hpc]; rfl) ha)]
  | addMoon | endJoin | join => exact h.same hstep hrefl (.inl rfl) rfl rfl
  | startThread r => exact h.same hstep hrefl (.inl rfl) rfl (RelayPc.emptied_checkSize r)
  | registerHandle r hpc =>
    refine h.keep hstep rfl rfl rfl (fun _ hm => hm) fun room' p e _ _ he => ?_
    change e ∈ (s.accumulator.registerHandle r.room r.identifier r.handle).registered room'
    rw [PacketAccumulator.registered_registerHandle]
    split_ifs with hnew
    · exact List.mem_append_left _ (hnew.1 ▸ he)
    · exact he
  | appendPacket r hpc hroom => exact h.appendPacket hr hstep hroom rfl rfl rfl rfl

/-! ### The other steps -/

theorem RoomStep.attended {t : ℕ} (h : s.Attended) (hr : (relaySystem keys).Reachable s)
    (hst : s.RoomStep t s') : s'.Attended := by
  obtain ⟨-, -, -, -, hhandles, hsub, -⟩ := hst.connections
  obtain ⟨-, -, -, hpc, -⟩ := hst.threads
  have hsessions := hst.sessions
  have hlogged := (ticks_of_reachable hr).logged t
  have hregistered : ∀ room, s'.accumulator.registered room = s.accumulator.registered room := by
    intro room
    rw [PacketAccumulator.registered, hhandles, PacketAccumulator.registered]
  -- the entry of a tick tells of no acceptance
  have hattends : ∀ room p e, Attends s'.log room p e → Attends s.log room p e := by
    intro room p e ha
    rcases hst.log with hlog | ⟨x, hlog, hx⟩
    · exact hlog ▸ ha
    · rw [hlog] at ha
      rcases attends_snoc ha with ⟨registered, rfl, -⟩ | ⟨ha, -⟩
      · cases hx
      · exact ha
  have hlisted : ∀ t' n connections room batch p e, .listed t' n connections ∈ s'.log →
      .took t' n room batch ∈ s'.log → p ∈ batch → Attends s.log room p e →
      e.handle ∈ s.sessions → e ∈ connections := by
    intro t' n connections room batch p e hl hb hp ha hs
    have hold := h.listed t' n connections room batch p e
    cases hst with
    | getPackets batch' =>
      have hl' : .listed t' n connections ∈ s.log :=
        (List.mem_append.1 hl).resolve_right fun he => by cases List.mem_singleton.1 he
      rcases List.mem_append.1 hb with hb | hb
      · exact hold hl' hb hp ha hs
      · -- a new tick has listed nothing
        cases List.mem_singleton.1 hb
        exact absurd (hlogged.listed_le _ _ hl').1 (Nat.not_succ_le_self _)
    | getConnections connections' hpc' hconnections =>
      have hb' : .took t' n room batch ∈ s.log :=
        (List.mem_append.1 hb).resolve_right fun he => by cases List.mem_singleton.1 he
      rcases List.mem_append.1 hl with hl | hl
      · exact hold hl hb' hp ha hs
      · cases List.mem_singleton.1 hl
        obtain ⟨rfl, -⟩ := hlogged.took_le _ _ _ hb'
        have he := h.registered _ p e ha hs
        rw [← hconnections, PacketAccumulator.getConnections,
          if_pos (PacketAccumulator.mem_handles_of_registered he)]
        exact he
    | _ => exact hold hl hb hp ha hs
  refine ⟨fun room p e hroom ha => ?_, fun room p e ha hs => ?_, fun g hg => ?_,
    fun t' n connections room batch p e hl hb hp ha hs =>
      hlisted t' n connections room batch p e hl hb hp (hattends room p e ha) (hsessions ▸ hs),
    fun j c room bytes parts hsent => ?_⟩
  · rw [hst.mem_packets, hpc] at hroom
    exact h.empty room p e hroom (hattends room p e ha)
  · rw [hregistered]
    exact h.registered room p e (hattends room p e ha) (hsessions ▸ hs)
  · rw [hsessions]
    exact h.ending g (hpc ▸ hg)
  · rw [hsessions]
    refine h.undelivered j c room bytes parts ?_
    cases hst with
    | getPackets | getConnections =>
      exact (List.mem_append.1 hsent).resolve_right fun he => by cases List.mem_singleton.1 he
    | _ => exact hsent

theorem WorkerStep.attended {k : Fin threadCount} (h : s.Attended) (hst : s.WorkerStep k s') :
    s'.Attended := by
  cases hst with
  | send j c a hpc hjob hc =>
    have hattends : ∀ room p e, Attends (s.jobSend j c a).log room p e →
        Attends s.log room p e := by
      intro room p e ha
      rcases attends_snoc ha with ⟨_, hx, -⟩ | ⟨ha, -⟩
      · cases hx
      · exact ha
    refine ⟨fun room p e hroom ha => h.empty room p e hroom (hattends room p e ha),
      fun room p e ha => h.registered room p e (hattends room p e ha), h.ending,
      fun t n connections room batch p e hl hb hp ha => ?_, fun j' c' room bytes parts hsent => ?_⟩
    · refine h.listed t n connections room batch p e ?_ ?_ hp (hattends room p e ha)
      · exact (List.mem_append.1 hl).resolve_right fun he => by cases List.mem_singleton.1 he
      · exact (List.mem_append.1 hb).resolve_right fun he => by cases List.mem_singleton.1 he
    · rcases List.mem_append.1 hsent with hsent | hsent
      · exact h.undelivered j' c' room bytes parts hsent
      · obtain ⟨rfl, rfl, rfl, rfl, rfl, hd⟩ := LogEntry.sent.inj (List.mem_singleton.1 hsent)
        exact of_decide_eq_false hd.symm
  | _ => exact ⟨h.empty, h.registered, h.ending, h.listed, h.undelivered⟩

theorem CallStep.attended (h : s.Attended) (hr : (relaySystem keys).Reachable s)
    (hst : s.CallStep s') : s'.Attended := by
  have hrecorded := recorded_of_reachable hr
  cases hst with
  | onOpen handle hpc hfresh =>
    -- the new connection has not taken part in anything
    have hold : ∀ {g}, g ∈ handle :: s.sessions → g ∈ s.opened → g ∈ s.sessions := by
      intro g hg ho
      exact (List.mem_cons.1 hg).resolve_left fun he => hfresh.1 (he ▸ ho)
    have hopened : ∀ {room p e}, Attends s.log room p e → e.handle ∈ s.opened := fun ha =>
      hrecorded.opened _ _ (hrecorded.valid.attends ha).1
    refine ⟨fun room p e hroom => h.empty room p e ?_,
      fun room p e ha hs => h.registered room p e ha (hold hs (hopened ha)),
      fun g hg => (by cases hg),
      fun t n connections room batch p e hl hb hp ha hs =>
        h.listed t n connections room batch p e hl hb hp ha (hold hs (hopened ha)),
      fun j c room bytes parts hsent hs => h.undelivered j c room bytes parts hsent (hold hs ?_)⟩
    · exact .inl (hroom.resolve_right fun he => by cases he)
    · obtain ⟨_, _, -, hl, hc, -⟩ := hrecorded.valid.sent_spec hsent
      exact hrecorded.opened _ _ ((hrecorded.valid.listed_spec hl).2 c (List.mem_of_getElem? hc))
  | onMessage handle message hpc hconnected =>
    exact h.frame (.inl rfl)
      (fun room p e hroom => h.empty room p e (.inl (hroom.resolve_right fun he => by cases he)))
      (fun _ _ _ _ _ he => he) (List.Subset.refl _) fun g hg => by cases hg
  | onClose handle hpc hconnected hclosed =>
    refine h.frame (.inl rfl)
      (fun room p e hroom => h.empty room p e (.inl (hroom.resolve_right fun he => by cases he)))
      (fun _ _ _ _ _ he => he) (List.Subset.refl _) fun g hg => ?_
    obtain rfl := Option.some.inj hg
    exact hclosed
  | endSession handle =>
    exact h.frame (.inl rfl) h.empty (fun _ _ _ _ _ he => he)
      (fun c hc => (List.mem_filter.1 hc).1) fun g hg hm => h.ending g hg (List.mem_filter.1 hm).1
  | refreshKeys table =>
    exact h.frame (.inl rfl) h.empty (fun _ _ _ _ _ he => he) (List.Subset.refl _) h.ending

theorem attended_of_reachable (h : (relaySystem keys).Reachable s) : s.Attended :=
  System.invariant h attended_init
    (fun _ _ h => ⟨h.empty, h.registered, h.ending, h.listed, h.undelivered⟩)
    (fun _ _ hr h hst => hst.attended h hr) (fun _ _ hr h hst => hst.attended h hr)
    (fun _ _ _ hr h _ hst => hst.attended h hr) fun _ _ _ _ h hst => hst.attended h

end System

end MoonJamRelay
