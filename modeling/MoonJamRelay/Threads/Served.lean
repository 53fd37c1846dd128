import MoonJamRelay.Relay.Invariant
import MoonJamRelay.Threads.RoomTable

/-!
# Rooms and the threads that serve them

`createRoom` starts a thread for a room unless `m_roomThreads` has one.  The thread of an earlier
life of the room may be in the table although it has left its loop; the clean-up removes it only if
it has also reported that it is done.

* `CleansUpInTime` : the clean-up of `createRoom` does not fall between the two.
* `System.Served` : the invariant of the runs of such steps.
* `room_served` : in these runs every room that exists has a thread in its loop.
* `not_room_served` : a moon client that returns between the two leaves its room without a thread.
-/

namespace MoonJamRelay

namespace System

variable {keys : KeyManager} {s s' : System}

/-- The message whose `createRoom` is about to clean up. -/
def cleaningUp (s : System) : Option Request :=
  match s.relayPc with
  | .cleanUp r => some r
  | _ => none

/-- The clean-up for a room does not run while a thread of the room has left its loop and has not
reported yet. -/
def CleansUpInTime (s : System) (l : Label) : Prop :=
  l = .relay → s.owner .completed = some .relay → ∀ r ∈ s.cleaningUp, ∀ t < s.spawned,
    (s.threads t).room = r.room → (s.threads t).pc ≠ .complete

instance (s : System) (l : Label) : Decidable (s.CleansUpInTime l) :=
  inferInstanceAs (Decidable (_ → _ → ∀ r ∈ s.cleaningUp, ∀ t < s.spawned, _ → _))

/-- The room that is being created, once its packet list is there. -/
def creating (s : System) : Option Hash :=
  match s.relayPc with
  | .insertHandles r | .createRoom r | .cleanUp r | .join r _ | .startThread r => some r.room
  | _ => none

/-- Every room has a thread in its loop, or is being created; once the clean-up of `createRoom` has
begun no thread of the room is about to report, and after it all its threads are in their loops. -/
structure Served (s : System) : Prop where
  served : ∀ room ∈ s.accumulator.packets, s.creating ≠ some room →
    ∃ t, (s.threads t).room = room ∧ (s.threads t).pc.InLoop
  exists_of_creating : ∀ room, s.creating = some room → room ∈ s.accumulator.packets
  join : ∀ r rest, s.relayPc = .join r rest → ∀ t, (s.threads t).room = r.room →
    (s.threads t).pc ≠ .complete
  start : ∀ r, s.relayPc = .startThread r → ∀ t, (s.threads t).room = r.room →
    (s.threads t).pc ≠ .joined → (s.threads t).pc.InLoop

theorem RoomStep.inLoop {t : ℕ} (h : s.RoomStep t s')
    (hroom : (s.threads t).room ∈ s.accumulator.packets) :
    ((s.threads t).pc.InLoop → (s'.threads t).pc.InLoop) ∧ (s'.threads t).pc ≠ .complete := by
  cases h with
  | leave _ hgone => exact absurd hroom hgone
  | getConnections connections hpc =>
    simp only [withThread, record, Function.update_self]
    split_ifs <;> simp [RoomPc.InLoop]
  | run i k hpc | joinRelease i hpc =>
    simp only [threadGoto, withThread, withWorker, withController, Function.update_self]
    split_ifs <;> simp [RoomPc.InLoop]
  | _ =>
    simp_all [threadGoto, withThread, withWorker, withController, withAccumulator, record,
      RoomPc.InLoop]

theorem RoomStep.mem_packets {t : ℕ} (h : s.RoomStep t s') (room : Hash) :
    room ∈ s'.accumulator.packets ↔ room ∈ s.accumulator.packets := by
  cases h with
  | noPackets | getPackets => exact PacketAccumulator.mem_packets_getPackets room
  | _ => exact Iff.rfl

theorem Served.frame (h : s.Served) (hth : s'.threads = s.threads)
    (hp : ∀ room, room ∈ s'.accumulator.packets → room ∈ s.accumulator.packets)
    (hc : s.creating = none) (hc' : s'.creating = none) : s'.Served := by
  refine ⟨fun room hr _ => ?_, fun room hr => ?_, fun r rest hpc => ?_, fun r hpc => ?_⟩
  · rw [hth]
    exact h.served room (hp room hr) (by simp [hc])
  · rw [hc'] at hr
    cases hr
  · simp [creating, hpc] at hc'
  · simp [creating, hpc] at hc'

/-- A section of `createRoom` that leaves the rooms and the threads as they are. -/
theorem Served.creating_frame (h : s.Served) (hth : s'.threads = s.threads)
    (hp : ∀ room, room ∈ s'.accumulator.packets ↔ room ∈ s.accumulator.packets)
    (hc : s'.creating = s.creating)
    (hjoin : ∀ r rest, s'.relayPc = .join r rest → ∀ t, (s.threads t).room = r.room →
      (s.threads t).pc ≠ .complete)
    (hstart : ∀ r, s'.relayPc = .startThread r → ∀ t, (s.threads t).room = r.room →
      (s.threads t).pc ≠ .joined → (s.threads t).pc.InLoop) : s'.Served := by
  refine ⟨fun room hr hne => ?_, fun room hr => ?_, ?_, ?_⟩
  · rw [hth]
    exact h.served room ((hp room).1 hr) (hc ▸ hne)
  · exact (hp room).2 (h.exists_of_creating room (hc ▸ hr))
  · rwa [hth]
  · rwa [hth]

theorem creating_checkSize (r : Request) : (s.goto r.checkSize).creating = none := by
  unfold creating goto Request.checkSize
  split_ifs <;> rfl

theorem not_inLoop_iff {pc : RoomPc} :
    ¬ pc.InLoop ↔ pc = .complete ∨ pc = .returning ∨ pc = .finished ∨ pc = .joined := by
  cases pc <;> simp [RoomPc.InLoop]

theorem Goto.served (h : s.Served) (htable : s.RoomTable) (hs : s.Spawned)
    (hclean : ∀ r ∈ s.cleaningUp, ∀ t < s.spawned, (s.threads t).room = r.room →
      (s.threads t).pc ≠ .complete) {pc : RelayPc} (hg : s.Goto pc) : (s.goto pc).Served := by
  have hpackets : ∀ room, room ∈ (s.goto pc).accumulator.packets →
      room ∈ s.accumulator.packets := fun _ hr => hr
  cases hg with
  | createRoom r hpc =>
    exact h.creating_frame rfl (fun _ => Iff.rfl) (by simp [creating, hpc, goto])
      (fun _ _ he => (by cases he)) (fun _ he => (by cases he))
  | cleanUp r hpc =>
    refine h.creating_frame rfl (fun _ => Iff.rfl) (by simp [creating, hpc, goto]) ?_
      (fun _ he => by cases he)
    rintro r' rest he t hroom hcomplete
    cases he
    rcases Nat.lt_or_ge t s.spawned with ht | ht
    · exact hclean r (by simp [cleaningUp, hpc]) t ht hroom hcomplete
    · rw [hs t ht] at hcomplete
      cases hcomplete
  | oldThread r hpc hr =>
    -- the thread in the table is in its loop
    refine ⟨fun room hroom _ => ?_, fun room hc => ?_, fun r' rest he => ?_, fun r' he => ?_⟩
    · by_cases hrr : room = r.room
      · subst hrr
        obtain ⟨t, ht⟩ := UnorderedMap.mem_iff_lookup.1 hr
        obtain ⟨hroom', hlive⟩ := htable.entry _ t ht
        exact ⟨t, hroom', h.start r hpc t hroom' hlive⟩
      · exact h.served room hroom (by simp [creating, hpc, Ne.symm hrr])
    · rw [creating_checkSize] at hc
      cases hc
    · have := creating_checkSize (s := s) r
      simp [creating, he] at this
    · have := creating_checkSize (s := s) r
      simp [creating, he] at this
  | hasRoom r hpc | oldRoom r hpc =>
    exact h.frame rfl hpackets (by simp [creating, hpc]) (creating_checkSize r)
  | closeIdentifier handle hpc | destroyNothing handle identifier room hpc
  | closePlayerCount handle identifier hpc | noIdentifier handle message hpc
  | getIdentifier handle message hpc | newRoom r hpc | getPlayerLimit r hpc
  | playerCount r limit hpc | countConnections r limit hpc | noPacket r hpc =>
    exact h.frame rfl hpackets (by simp [creating, hpc]) (by simp [creating, goto])

theorem RelayStep.served (h : s.Served) (htable : s.RoomTable) (hs : s.Spawned)
    (hclean : ∀ r ∈ s.cleaningUp, ∀ t < s.spawned, (s.threads t).room = r.room →
      (s.threads t).pc ≠ .complete) (hst : s.RelayStep s') : s'.Served := by
  cases hst with
  | goto pc hg => exact hg.served h htable hs hclean
  | insertPackets r hpc hr =>
    refine ⟨fun room hroom hne => ?_, fun room hc => ?_, fun _ _ he => (by cases he),
      fun _ he => by cases he⟩
    · have hrr : room ≠ r.room := fun he => hne (by simp [creating, System.goto, he])
      refine h.served room ?_ (by simp [creating, hpc])
      exact ((AList.mem_insert _).1 hroom).resolve_left hrr
    · obtain rfl : r.room = room := by simpa [creating, System.goto] using hc
      exact (AList.mem_insert _).2 (.inl rfl)
  | insertHandles r hpc =>
    exact h.creating_frame rfl (fun _ => Iff.rfl) (by simp [creating, hpc, System.goto])
      (fun _ _ he => (by cases he)) (fun _ he => (by cases he))
  | endJoin r hpc =>
    refine h.creating_frame rfl (fun _ => Iff.rfl) (by simp [creating, hpc])
      (fun _ _ he => by cases he) ?_
    rintro r' he t hroom hlive
    cases he
    -- nobody is left to report
    by_contra hloop
    have hun : s.uncleaned = [] := by
      simp [System.uncleaned, hpc, RelayPc.uncleaned]
    have hrep : ¬ s.Reported t := fun hrep => by
      have := (htable.reported _).2 ⟨t, rfl, hrep⟩
      rw [hun] at this
      cases this
    rcases not_inLoop_iff.1 hloop with hp | hp | hp | hp
    · exact h.join r [] hpc t hroom hp
    · exact hrep (.inl hp)
    · exact hrep (.inr hp)
    · exact hlive hp
  | join r room rest t hpc hl hfin =>
    have hloop : ∀ t', (s.threads t').pc.InLoop → t' ≠ t := by
      rintro t' hin rfl
      simp [hfin, RoomPc.InLoop] at hin
    refine ⟨fun room' hr hne => ?_, fun room' hc => ?_, fun r' rest' he t' hr hcomplete => ?_,
      fun _ he => by cases he⟩
    · obtain ⟨t', hroom, hin⟩ := h.served room' hr (by simpa [creating, hpc] using hne)
      exact ⟨t', by simpa [Function.update_of_ne (hloop t' hin)] using ⟨hroom, hin⟩⟩
    · exact h.exists_of_creating room' (by simpa [creating, hpc] using hc)
    · cases he
      by_cases ht : t' = t
      · subst ht
        simp at hcomplete
      · simp only [Function.update_of_ne ht] at hr hcomplete
        exact h.join r _ hpc t' hr hcomplete
  | startThread r hpc hr =>
    have hnew : ∀ t, (s.threads t).pc.InLoop → t ≠ s.spawned := by
      rintro t hin rfl
      simp [hs _ le_rfl, RoomPc.InLoop] at hin
    have hcreating := creating_checkSize (s := s) r
    refine ⟨fun room hroom _ => ?_, fun room hc => ?_, fun r' rest he => ?_, fun r' he => ?_⟩
    · by_cases hrr : room = r.room
      · exact ⟨s.spawned, by simp [RoomThread.start, hrr, RoomPc.InLoop]⟩
      · obtain ⟨t, ht, hin⟩ := h.served room hroom (by simp [creating, hpc, Ne.symm hrr])
        exact ⟨t, by simpa [Function.update_of_ne (hnew t hin)] using ⟨ht, hin⟩⟩
    · exact absurd (hcreating.symm.trans hc) (by simp)
    · simp only [creating, System.goto] at hcreating
      rw [show r.checkSize = _ from he] at hcreating
      cases hcreating
    · simp only [creating, System.goto] at hcreating
      rw [show r.checkSize = _ from he] at hcreating
      cases hcreating
  | erasePackets handle identifier room hpc =>
    exact h.frame rfl (fun _ hr => (AList.mem_erase.1 hr).2) (by simp [System.creating, hpc])
      (by simp [System.creating, System.goto])
  | eraseMoon handle identifier hpc | eraseLastMoon handle identifier room hpc =>
    refine h.frame rfl (fun room hr => ?_) (by simp [System.creating, hpc])
      (by simp [System.creating])
    exact (congrArg (room ∈ ·.packets) RelayServer.packetAccumulator_eraseMoon).mp hr
  | releaseIdentifier handle identifier hpc =>
    refine h.frame rfl (fun room hr => ?_) (by simp [System.creating, hpc])
      (by simp [System.creating])
    exact (congrArg (room ∈ ·.packets) RelayServer.packetAccumulator_releaseIdentifier).mp hr
  | claimIdentifier handle hpc =>
    refine h.frame rfl (fun room hr => ?_) (by simp [System.creating, hpc])
      (by simp [System.creating])
    exact (congrArg (room ∈ ·.packets) RelayServer.packetAccumulator_claimIdentifier).mp hr
  | appendPacket r hpc =>
    exact h.frame rfl (fun room hr => (PacketAccumulator.mem_appendPacket _ _ _ room).1 hr)
      (by simp [System.creating, hpc]) (by simp [System.creating, System.goto])
  | getRoom handle message identifier r pc hpc hr hne hcase =>
    refine h.frame rfl (fun _ hr => hr) (by simp [System.creating, hpc]) ?_
    rcases hcase with ⟨rfl, -⟩ | ⟨rfl, -⟩ <;> rfl
  | eraseHandles _ _ _ hpc | removeConnection _ _ hpc | tooShort _ _ hpc | unknownKey _ _ _ hpc
  | addMoon r hpc | noRoom r hpc | full r limit hpc | registerHandle r hpc =>
    exact h.frame rfl (fun _ hr => hr) (by simp [System.creating, hpc]) rfl

/-- The steps of the other threads: a room thread may leave its loop, but not while its room
exists. -/
theorem Served.other (h : s.Served) (hp : ∀ room, room ∈ s'.accumulator.packets ↔
      room ∈ s.accumulator.packets) (hpc : s'.relayPc = s.relayPc)
    (hrooms : ∀ t, (s'.threads t).room = (s.threads t).room)
    (hlive : ∀ t, (s'.threads t).pc ≠ .joined → (s.threads t).pc ≠ .joined)
    (hloop : ∀ t, (s.threads t).room ∈ s.accumulator.packets →
      ((s.threads t).pc.InLoop → (s'.threads t).pc.InLoop) ∧
      ((s.threads t).pc ≠ .complete → (s'.threads t).pc ≠ .complete)) : s'.Served := by
  have hc : s'.creating = s.creating := by rw [creating, hpc, creating]
  have hroom : ∀ t room, s.creating = some room → (s'.threads t).room = room →
      (s.threads t).room ∈ s.accumulator.packets := by
    intro t room hroom hr
    rw [← hrooms t, hr]
    exact h.exists_of_creating room hroom
  refine ⟨fun room hr hne => ?_, fun room hr => ?_, fun r rest he t hr => ?_,
    fun r he t hr hl => ?_⟩
  · obtain ⟨t, rfl, hin⟩ := h.served room ((hp room).1 hr) (hc ▸ hne)
    exact ⟨t, hrooms t, (hloop t ((hp _).1 hr)).1 hin⟩
  · exact (hp room).2 (h.exists_of_creating room (hc ▸ hr))
  · rw [hpc] at he
    exact (hloop t (hroom t r.room (by simp [creating, he]) hr)).2
      (h.join r rest he t ((hrooms t).symm.trans hr))
  · rw [hpc] at he
    exact (hloop t (hroom t r.room (by simp [creating, he]) hr)).1
      (h.start r he t ((hrooms t).symm.trans hr) (hlive t hl))

theorem Served.congr (h : s.Served) (hth : s'.threads = s.threads) (hpc : s'.relayPc = s.relayPc)
    (hserver : s'.server = s.server) : s'.Served := by
  refine h.other (fun room => ?_) hpc ?_ ?_ ?_
  · rw [accumulator, hserver]
  · simp [hth]
  · simp [hth]
  · exact fun t _ => ⟨fun hin => hth ▸ hin, fun hne => hth ▸ hne⟩

theorem served_init : (System.init keys).Served :=
  ⟨fun _ hr => absurd hr (AList.notMem_empty _), fun _ hr => (by cases hr),
    fun _ _ hr => (by cases hr), fun _ hr => (by cases hr)⟩

theorem CallStep.served (h : s.Served) (hst : s.CallStep s') : s'.Served := by
  obtain ⟨hth, -, -, -, -, hserver⟩ := hst.threads
  have hp : ∀ room, room ∈ s'.accumulator.packets → room ∈ s.accumulator.packets := by
    intro room hr
    rwa [System.accumulator, hserver] at hr
  cases hst with
  | onOpen handle hpc | onMessage handle message hpc | onClose handle hpc =>
    exact h.frame hth hp (by simp [System.creating, hpc]) rfl
  | endSession | refreshKeys => exact h.congr rfl rfl rfl

theorem RoomStep.served (h : s.Served) {t : ℕ} (hst : s.RoomStep t s') : s'.Served := by
  obtain ⟨hlive, -, -, hpc, -, hth⟩ := hst.threads
  obtain ⟨hroom, -⟩ := hst.reported
  refine h.other hst.mem_packets hpc (fun t' => ?_) (fun t' hl => ?_) (fun t' hr => ?_) <;>
    by_cases ht : t' = t
  · exact ht ▸ hroom
  · rw [hth t' ht]
  · exact ht ▸ hlive
  · rwa [hth t' ht] at hl
  · subst ht
    exact ⟨(hst.inLoop hr).1, fun _ => (hst.inLoop hr).2⟩
  · rw [hth t' ht]
    exact ⟨id, id⟩

theorem Step.served {l : Label} (h : s.Served) (htable : s.RoomTable) (hs : s.Spawned)
    (hclean : s.CleansUpInTime l) (hst : s.Step l s') : s'.Served := by
  cases hst with
  | call _ hst => exact hst.served h
  | acquire => exact h.congr rfl rfl rfl
  | relay hst howner =>
    refine Served.congr (hst.served h htable hs fun r hr => ?_) rfl rfl rfl
    refine hclean rfl (howner _ ?_) r hr
    unfold cleaningUp at hr
    split at hr
    · rename_i hpc
      rw [hpc]
      rfl
    · cases hr
  | room t hst => exact (hst.served h).congr rfl rfl rfl
  | worker k hst =>
    obtain ⟨hth, -, -, hpc, -, -, hserver⟩ := hst.threads
    exact h.congr hth hpc hserver

theorem served_of_restrict (h : ((relaySystem keys).restrict CleansUpInTime).Reachable s) :
    s.Served := by
  refine h.invariant served_init fun u l u' hu hI hst => ?_
  obtain ⟨hok, hst⟩ := Machine.restrict_next.1 hst
  have hr := hu.of_restrict
  exact (next_step hst).served hI (roomTable_of_reachable hr) (spawned_of_reachable hr) hok

end System

/-- **Every room is served**, in every run in which the clean-up for a room falls outside the time
between the end of the loop of its old thread and the report of that thread: unless a room is being
created, every room that exists has a thread that has not left its loop. -/
theorem room_served {keys : KeyManager} {s : System}
    (h : ((relaySystem keys).restrict System.CleansUpInTime).Reachable s)
    (hcreating : ¬ s.relayPc.Creating) :
    ∀ room ∈ s.accumulator.packets, ∃ t, (s.threads t).room = room ∧ (s.threads t).pc.InLoop := by
  intro room hr
  refine (System.served_of_restrict h).served room hr fun hc => hcreating ?_
  unfold System.creating at hc
  split at hc <;> simp_all [RelayPc.Creating]

/-- The room of the first moon client, after its first message. -/
theorem room_served_of_start :
    ∃ s, ((relaySystem moonTable).restrict System.CleansUpInTime).Reachable s ∧
      moonKey ∈ s.accumulator.packets ∧
      ∃ t, (s.threads t).room = moonKey ∧ (s.threads t).pc.InLoop := by
  have hrun : (((relaySystem moonTable).restrict System.CleansUpInTime).run (.init moonTable)
      startLabels).any (fun s => decide (s.relayPc = .idle ∧ moonKey ∈ s.accumulator.packets)) =
      true := by decide +kernel
  obtain ⟨s, hs, hp⟩ := (Option.any_eq_true _ _).1 hrun
  obtain ⟨hidle, hroom⟩ := of_decide_eq_true hp
  have hreach : ((relaySystem moonTable).restrict System.CleansUpInTime).Reachable s := .of_run hs
  refine ⟨s, hreach, hroom, room_served hreach (fun hc => ?_) moonKey hroom⟩
  rw [hidle] at hc
  exact hc

/-- The moon client closes, the thread of its room sees that the room is gone, and before it
reports the next moon client sends the same key. -/
def returnLabels : List Label :=
  startLabels ++ [.endSession moonHandle, .onClose moonHandle] ++ List.replicate 14 .relay ++
    [.room 0, .room 0, .onOpen ⟨2, 16⟩, .relay, .relay, .onMessage ⟨2, 16⟩ moonKey.bytes] ++
    List.replicate 28 .relay

/-- **A room without a thread**: after `returnLabels` the room exists again, the handlers are done,
and the only thread ever started has left its loop. -/
theorem not_room_served : ¬ ∀ keys s, (relaySystem keys).Reachable s → ¬ s.relayPc.Creating →
    ∀ room ∈ s.accumulator.packets, ∃ t, (s.threads t).room = room ∧ (s.threads t).pc.InLoop := by
  intro h
  have hrun : ((relaySystem moonTable).run (.init moonTable) returnLabels).any
      (fun s => decide (s.relayPc = .idle ∧ moonKey ∈ s.accumulator.packets ∧
        ∀ t < s.spawned, (s.threads t).pc = .complete)) = true := by decide +kernel
  obtain ⟨s, hs, hp⟩ := (Option.any_eq_true _ _).1 hrun
  obtain ⟨hidle, hroom, hleft⟩ := of_decide_eq_true hp
  have hreach : (relaySystem moonTable).Reachable s := .of_run hs
  obtain ⟨t, -, hin⟩ := h moonTable s hreach (fun hc => by rw [hidle] at hc; exact hc) moonKey hroom
  rcases Nat.lt_or_ge t s.spawned with ht | ht
  · rw [hleft t ht] at hin
    exact hin
  · rw [System.spawned_of_reachable hreach t ht] at hin
    exact hin

end MoonJamRelay
