import MoonJamRelay.Threads.Broadcast
import MoonJamRelay.Threads.Served

/-!
# Who is admitted

The key table can be replaced at any time, so what the table has now says nothing about the rooms
that exist.  But every look-up is in the log with the table it found.

* `Log.Presented` : the moon key of the room was presented, and the table of that time had it.
* `System.Admitted` : every room that exists was presented, and messages are only accepted into
  rooms with a key; `admitted_of_reachable`.
-/

namespace MoonJamRelay

namespace Log

/-- A message with the moon key of the room was looked up, and the table had the room for it. -/
def Presented (log : List LogEntry) (room : Hash) : Prop :=
  ∃ handle message keys, .resolved handle message keys ∈ log ∧ Hash.ofBytes message = room ∧
    keys.getRoom room = room

variable {log log' : List LogEntry} {room : Hash}

theorem Presented.mono (h : Presented log room) (hsub : log ⊆ log') : Presented log' room := by
  obtain ⟨handle, message, keys, hm, hkey, hroom⟩ := h
  exact ⟨handle, message, keys, hsub hm, hkey, hroom⟩

theorem mem_of_lastResolved {handle : ConnectionHdl} {message : List UInt8} {keys : KeyManager}
    (h : lastResolved log = some (handle, message, keys)) :
    .resolved handle message keys ∈ log := by
  induction log using List.reverseRecOn with
  | nil => cases h
  | append_singleton log e ih =>
    rw [lastResolved_snoc] at h
    cases e with
    | resolved handle' message' keys' =>
      cases h
      exact List.mem_append_right _ (List.mem_singleton_self _)
    | _ => exact List.mem_append_left _ (ih h)

end Log

namespace System

variable {keys : KeyManager} {s s' : System}

/-- Rooms and their keys. -/
structure Admitted (s : System) : Prop where
  request : ∀ r, s.relayPc.request = some r → r.room ≠ Hash.empty
  /-- Only a message with a moon key creates a room. -/
  creating : ∀ r, s.relayPc = .insertPackets r → r.moonClient = true
  rooms : ∀ room ∈ s.accumulator.packets, room ≠ Hash.empty ∧ Log.Presented s.log room
  accepted : ∀ room p registered, .accepted room p registered ∈ s.log → room ≠ Hash.empty

/-- Steps that neither create a room nor accept a message. -/
theorem Admitted.frame (h : s.Admitted)
    (hrequest : ∀ r, s'.relayPc.request = some r → r.room ≠ Hash.empty)
    (hcreating : ∀ r, s'.relayPc = .insertPackets r → r.moonClient = true)
    (hp : ∀ room, room ∈ s'.accumulator.packets → room ∈ s.accumulator.packets)
    (hlog : s.log ⊆ s'.log)
    (haccepted : ∀ room p registered, .accepted room p registered ∈ s'.log →
      .accepted room p registered ∈ s.log) : s'.Admitted where
  request := hrequest
  creating := hcreating
  rooms room hr := ⟨(h.rooms room (hp room hr)).1, (h.rooms room (hp room hr)).2.mono hlog⟩
  accepted room p registered hm := h.accepted room p registered (haccepted room p registered hm)

/-- The handler that was running goes on with its message, or returns. -/
theorem Admitted.within (h : s.Admitted) (hpc : s'.relayPc.Within s.relayPc)
    (hcreating : ∀ r, s'.relayPc = .insertPackets r → r.moonClient = true)
    (hp : ∀ room, room ∈ s'.accumulator.packets → room ∈ s.accumulator.packets)
    (hlog : s'.log = s.log) : s'.Admitted :=
  h.frame (fun r hr => h.request r (hpc.request r hr)) hcreating hp
    (by rw [hlog]; exact fun _ h => h)
    fun _ _ _ hm => hlog ▸ hm

theorem checkSize_ne_insertPackets (r r' : Request) : r.checkSize ≠ .insertPackets r' := by
  unfold Request.checkSize
  split_ifs <;> (intro h; cases h)

/-- An entry that accepts no message. -/
theorem accepted_of_snoc {e : LogEntry} (he : ∀ room p registered, e ≠ .accepted room p registered)
    (room : Hash) (p : Packet) (registered : List ReceivedConnection)
    (hm : .accepted room p registered ∈ s.log ++ [e]) : .accepted room p registered ∈ s.log :=
  (List.mem_append.1 hm).resolve_right fun hm => he room p registered (List.mem_singleton.1 hm).symm

theorem admitted_init : (System.init keys).Admitted :=
  ⟨fun _ hr => (by cases hr), fun _ hr => (by cases hr),
    fun _ hr => absurd hr (AList.notMem_empty _),
    fun _ _ _ hm => by cases hm⟩

theorem Goto.admitted (h : s.Admitted) {pc : RelayPc} (hg : s.Goto pc) : (s.goto pc).Admitted := by
  have hsame : pc.Within s.relayPc → (∀ r, pc = .insertPackets r → r.moonClient = true) →
      (s.goto pc).Admitted := fun hpc hcreating =>
    h.within hpc hcreating (fun _ hr => hr) rfl
  cases hg with
  | newRoom r hpc _ hmoon =>
    refine hsame (RelayPc.within_request (by rw [hpc]; rfl) rfl) fun r' he => ?_
    cases he
    exact hmoon
  | closeIdentifier handle hpc | getIdentifier handle message hpc =>
    exact h.frame (fun _ he => by cases he) (fun _ he => by cases he) (fun _ hr => hr)
      (List.Subset.refl _) fun _ _ _ hm => hm
  | noIdentifier handle message | noPacket r =>
    exact hsame (RelayPc.within_idle _) fun _ he => by cases he
  | hasRoom r hpc | oldRoom r hpc | oldThread r hpc =>
    exact hsame (RelayPc.within_checkSize (by rw [hpc]; rfl)) fun r' he =>
      absurd he (checkSize_ne_insertPackets r r')
  | destroyNothing handle identifier room hpc | closePlayerCount handle identifier hpc =>
    exact hsame (RelayPc.within_closing (by rw [hpc]; rfl) rfl) fun _ he => by cases he
  | createRoom r hpc | cleanUp r hpc | getPlayerLimit r hpc | playerCount r limit hpc
  | countConnections r limit hpc =>
    exact hsame (RelayPc.within_request (by rw [hpc]; rfl) rfl) fun _ he => by cases he

theorem RelayStep.admitted (h : s.Admitted) (hh : s.Handling) (hst : s.RelayStep s') :
    s'.Admitted := by
  have hsub : ∀ e, s.log ⊆ s.log ++ [e] := fun e => List.subset_append_left _ _
  cases hst with
  | goto pc hg => exact hg.admitted h
  | insertPackets r hpc =>
    -- the room of a moon client: its key was looked up last
    have hr : s.relayPc.request = some r := by rw [hpc]; rfl
    obtain ⟨-, table, hlast, hroom⟩ := hh.request r hr
    have hkey : Hash.ofBytes r.message = r.room := (of_decide_eq_true (h.creating r hpc)).symm
    refine ⟨fun r' he => ?_, fun _ he => (by cases he), fun room hm => ?_, h.accepted⟩
    · cases he
      exact h.request r hr
    · rcases (AList.mem_insert _).1 hm with rfl | hm
      · exact ⟨h.request r hr, _, _, table, Log.mem_of_lastResolved hlast, hkey, hkey ▸ hroom⟩
      · exact h.rooms room hm
  | getRoom handle message identifier r pc hpc hr hne hcase =>
    rcases hcase with ⟨rfl, -⟩ | ⟨rfl, -⟩ <;>
      exact h.frame (fun r' he => (by cases he; exact hne)) (fun _ he => by cases he)
        (fun _ hm => hm) (hsub _) (accepted_of_snoc nofun)
  | appendPacket r hpc =>
    have hr : s.relayPc.request = some r.toRequest := by rw [hpc]; rfl
    refine ⟨fun r' he => ?_, fun _ he => (by cases he), fun room hm => ?_,
      fun room p registered hm => ?_⟩
    · cases he
      exact h.request _ hr
    · obtain ⟨hne, hpresented⟩ :=
        h.rooms room ((PacketAccumulator.mem_appendPacket _ _ _ room).1 hm)
      exact ⟨hne, hpresented.mono (hsub _)⟩
    · rcases List.mem_append.1 hm with hm | hm
      · exact h.accepted room p registered hm
      · cases List.mem_singleton.1 hm
        exact h.request _ hr
  | claimIdentifier =>
    refine h.frame (fun _ he => by cases he) (fun _ he => by cases he) (fun room hm => ?_) (hsub _)
      (accepted_of_snoc nofun)
    exact (congrArg (room ∈ ·.packets) RelayServer.packetAccumulator_claimIdentifier).mp hm
  | unknownKey =>
    exact h.frame (fun _ he => by cases he) (fun _ he => by cases he) (fun _ hm => hm) (hsub _)
      (accepted_of_snoc nofun)
  | erasePackets handle identifier room hpc =>
    exact h.frame (fun _ he => by cases he) (fun _ he => by cases he)
      (fun _ hm => (AList.mem_erase.1 hm).2) (hsub _) (accepted_of_snoc nofun)
  | eraseMoon handle identifier hpc | eraseLastMoon handle identifier room hpc =>
    refine h.frame (fun _ he => by cases he) (fun _ he => by cases he) (fun room hm => ?_)
      (List.Subset.refl _) fun _ _ _ hm => hm
    exact (congrArg (room ∈ ·.packets) RelayServer.packetAccumulator_eraseMoon).mp hm
  | releaseIdentifier =>
    refine h.frame (fun _ he => by cases he) (fun _ he => by cases he) (fun room hm => ?_)
      (List.Subset.refl _) fun _ _ _ hm => hm
    exact (congrArg (room ∈ ·.packets) RelayServer.packetAccumulator_releaseIdentifier).mp hm
  | startThread r hpc =>
    exact h.within (RelayPc.within_checkSize (by rw [hpc]; rfl))
      (fun r' he => absurd he (checkSize_ne_insertPackets r r')) (fun _ hm => hm) rfl
  | eraseHandles | removeConnection | tooShort | noRoom | full | registerHandle =>
    exact h.frame (fun _ he => by cases he) (fun _ he => by cases he) (fun _ hm => hm)
      (List.Subset.refl _) fun _ _ _ hm => hm
  | addMoon r hpc | insertHandles r hpc | endJoin r hpc | join r room rest t hpc =>
    exact h.within (RelayPc.within_request (by rw [hpc]; rfl) rfl) (fun _ he => by cases he)
      (fun _ hm => hm) rfl

theorem admitted_of_reachable (h : (relaySystem keys).Reachable s) : s.Admitted := by
  have hstay : ∀ {u u' : System}, u.Admitted → u'.relayPc = u.relayPc →
      (∀ room, room ∈ u'.accumulator.packets → room ∈ u.accumulator.packets) →
      (u'.log = u.log ∨ ∃ e, u'.log = u.log ++ [e] ∧ ∀ room p registered,
        e ≠ .accepted room p registered) → u'.Admitted := by
    intro u u' hu hpc hp hlog
    refine hu.frame (by rw [hpc]; exact hu.request) (by rw [hpc]; exact hu.creating) hp ?_ ?_
    all_goals rcases hlog with hlog | ⟨e, hlog, he⟩ <;> rw [hlog]
    · exact List.Subset.refl _
    · exact List.subset_append_left _ _
    · exact fun _ _ _ hm => hm
    · exact accepted_of_snoc he
  refine System.invariant h admitted_init
    (fun u o hu => hstay hu rfl (fun _ hm => hm) (.inl rfl)) ?_
    (fun u u' hr hu hst => hst.admitted hu (handling_of_reachable hr)) ?_ ?_
  · intro u u' _ hu hst
    cases hst with
    | onOpen | onMessage | onClose =>
      exact hu.frame (fun _ he => by cases he) (fun _ he => by cases he) (fun _ hm => hm)
        (List.Subset.refl _) fun _ _ _ hm => hm
    | endSession | refreshKeys => exact hstay hu rfl (fun _ hm => hm) (.inl rfl)
  · intro u t u' _ hu _ hst
    obtain ⟨-, -, -, hpc, -⟩ := hst.threads
    refine hstay hu hpc (fun room => (hst.mem_packets room).1) ?_
    cases hst with
    | getPackets | getConnections => exact .inr ⟨_, rfl, fun _ _ _ h => by cases h⟩
    | _ => exact .inl rfl
  · intro u k u' _ hu hst
    obtain ⟨-, -, -, hpc, -, -, hserver⟩ := hst.threads
    refine hstay hu hpc (fun room hm => by rwa [accumulator, hserver] at hm) ?_
    cases hst with
    | send => exact .inr ⟨_, rfl, fun _ _ _ h => by cases h⟩
    | _ => exact .inl rfl

end System

end MoonJamRelay
