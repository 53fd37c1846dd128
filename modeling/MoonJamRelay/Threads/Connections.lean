import MoonJamRelay.Relay.Invariant
import MoonJamRelay.Threads.Delivery
import MoonJamRelay.Threads.Mutexes

/-!
# Connections and their identifiers, at every program point

Inside a handler the tables of the relay are not always in the state they have between two calls.
What holds at every program point:

* `System.Handling` : the identifier tables fit the open connections; the connection of the running
  handler is open and the handler has its identifier, and the room of its message.
* `System.Registered` : what is registered in a room is an open connection under the identifier it
  holds, and it has spoken in the room; a connection that releases its identifier is registered
  nowhere.
-/

namespace MoonJamRelay

namespace RelayPc

/-- The open connection whose handler runs. -/
def handler : RelayPc → Option ConnectionHdl
  | idle | claimIdentifier _ => none
  | closeIdentifier h | eraseMoon h _ | erasePackets h _ _ | eraseHandles h _ _
  | closePlayerCount h _ | removeConnection h _ | releaseIdentifier h _ | getIdentifier h _
  | getRoom h _ _ => some h
  | addMoon r | hasRoom r | insertPackets r | insertHandles r | createRoom r | cleanUp r
  | join r _ | startThread r => some r.handle
  | getPlayerLimit r | playerCount r _ | countConnections r _ | appendPacket r
  | registerHandle r => some r.handle

/-- The identifier the handler has found for its connection. -/
def found : RelayPc → Option (ConnectionHdl × UInt16)
  | getRoom h _ i => some (h, i)
  | pc => (pc.closing).or (pc.request.map fun r => (r.handle, r.identifier))

/-- The handler that was running goes on, with nothing new, or it returns. -/
structure Within (pc' pc : RelayPc) : Prop where
  entering : ∀ h, pc' = claimIdentifier h → pc = claimIdentifier h
  getRoom : ∀ h m i, pc' = getRoom h m i → pc = getRoom h m i
  handler : ∀ h, pc'.handler = some h → pc.handler = some h
  found : ∀ x, pc'.found = some x → pc.found = some x
  request : ∀ r, pc'.request = some r → pc.request = some r

variable {pc : RelayPc} {r : Request}

theorem Within.refl (pc : RelayPc) : pc.Within pc :=
  ⟨fun _ h => h, fun _ _ _ h => h, fun _ h => h, fun _ h => h, fun _ h => h⟩

theorem within_idle (pc : RelayPc) : idle.Within pc :=
  ⟨fun _ h => (by cases h), fun _ _ _ h => (by cases h), fun _ h => (by cases h),
    fun _ h => (by cases h), fun _ h => (by cases h)⟩

theorem within_request {pc' : RelayPc} (hpc : pc.request = some r) (hpc' : pc'.request = some r) :
    pc'.Within pc := by
  have hall : ∀ {pc : RelayPc}, pc.request = some r → pc.handler = some r.handle ∧
      pc.found = some (r.handle, r.identifier) ∧ (∀ h, pc ≠ claimIdentifier h) ∧
      ∀ h m i, pc ≠ RelayPc.getRoom h m i := by
    intro pc h
    cases pc <;> simp_all [RelayPc.request, RelayPc.handler, RelayPc.found, closing]
  obtain ⟨h1, h2, -⟩ := hall hpc
  obtain ⟨h1', h2', h3', h4'⟩ := hall hpc'
  exact ⟨fun h e => absurd e (h3' h), fun h m i e => absurd e (h4' h m i), by simp [h1, h1'],
    by simp [h2, h2'], by simp [hpc, hpc']⟩

theorem within_closing {pc' : RelayPc} {x : ConnectionHdl × UInt16} (hpc : pc.closing = some x)
    (hpc' : pc'.closing = some x) : pc'.Within pc := by
  have hall : ∀ {pc : RelayPc}, pc.closing = some x → pc.handler = some x.1 ∧
      pc.found = some x ∧ pc.request = none ∧ (∀ h, pc ≠ claimIdentifier h) ∧
      ∀ h m i, pc ≠ RelayPc.getRoom h m i := by
    intro pc h
    cases pc <;> simp_all [RelayPc.request, RelayPc.handler, RelayPc.found, closing] <;> simp [← h]
  obtain ⟨h1, h2, h3, -⟩ := hall hpc
  obtain ⟨h1', h2', h3', h4', h5'⟩ := hall hpc'
  exact ⟨fun h e => absurd e (h4' h), fun h m i e => absurd e (h5' h m i), by simp [h1, h1'],
    by simp [h2, h2'], by simp [h3']⟩

theorem within_checkSize (hpc : pc.request = some r) : r.checkSize.Within pc := by
  unfold Request.checkSize
  split_ifs
  · exact within_idle pc
  · exact within_request hpc rfl

end RelayPc

namespace System

variable {keys : KeyManager} {s s' : System}

/-- The handlers and the identifier tables. -/
structure Handling (s : System) : Prop where
  identifiers : s.server.Identifiers s.connected
  /-- A connection has had its identifier since it was opened. -/
  opened : ∀ c ∈ s.connected, .opened c (s.server.getIdentifier c) ∈ s.log
  fresh : ∀ h, s.relayPc = .claimIdentifier h → s.Fresh h
  running : ∀ h, s.relayPc.handler = some h → h ∈ s.connected
  found : ∀ h i, s.relayPc.found = some (h, i) → i = s.server.getIdentifier h
  nonzero : ∀ h m i, s.relayPc = .getRoom h m i → i ≠ 0
  /-- The room of a message is the one its key has just been resolved to. -/
  request : ∀ r, s.relayPc.request = some r → r.identifier ≠ 0 ∧
    ∃ keys, Log.lastResolved s.log = some (r.handle, r.message, keys) ∧
      keys.getRoom (Hash.ofBytes r.message) = r.room

theorem Handling.owns (h : s.Handling) {r : Request} (hr : s.relayPc.request = some r) :
    s.server.Owns s.connected r.identifier r.handle := by
  have hfound : s.relayPc.found = some (r.handle, r.identifier) := by
    cases hpc : s.relayPc <;> simp_all [RelayPc.request, RelayPc.found, RelayPc.closing]
  have hrunning : s.relayPc.handler = some r.handle := by
    cases hpc : s.relayPc <;> simp_all [RelayPc.request, RelayPc.handler]
  have hid := h.found _ _ hfound
  refine ⟨h.running _ hrunning, ?_⟩
  rw [hid]
  exact RelayServer.lookup_of_getIdentifier_ne_zero (hid ▸ (h.request r hr).1)

theorem Handling.frame (h : s.Handling) (hconnected : s'.connected = s.connected)
    (hopened : s'.opened = s.opened)
    (hmap : s'.server.handlePointerToIdentifierMap = s.server.handlePointerToIdentifierMap)
    (hres : s'.server.reservedIdentifiers = s.server.reservedIdentifiers)
    (hlog : s.log ⊆ s'.log) (hpc : s'.relayPc.Within s.relayPc)
    (hlast : s'.relayPc.request = none ∨ Log.lastResolved s'.log = Log.lastResolved s.log) :
    s'.Handling := by
  have hid : ∀ c, s'.server.getIdentifier c = s.server.getIdentifier c := fun c => by
    simp [RelayServer.getIdentifier, hmap]
  refine ⟨?_, fun c hc => ?_, fun handle he => ?_, fun handle he => ?_, fun handle i he => ?_,
    fun handle m i he => h.nonzero handle m i (hpc.getRoom _ _ _ he), fun r hr => ?_⟩
  · rw [hconnected]
    exact h.identifiers.congr hmap hres
  · rw [hid]
    exact hlog (h.opened c (hconnected ▸ hc))
  · obtain ⟨h1, h2⟩ := h.fresh handle (hpc.entering _ he)
    exact ⟨hopened ▸ h1, hconnected ▸ h2⟩
  · exact hconnected ▸ h.running handle (hpc.handler _ he)
  · rw [hid]
    exact h.found handle i (hpc.found _ he)
  · obtain ⟨hne, keys, hk, hroom⟩ := h.request r (hpc.request _ hr)
    rcases hlast with hnone | hlast
    · rw [hnone] at hr
      cases hr
    · exact ⟨hne, keys, hlast.trans hk, hroom⟩

theorem handling_init : (System.init keys).Handling where
  identifiers := RelayServer.Identifiers.init
  opened _ hc := nomatch hc
  fresh _ hh := nomatch hh
  running _ hh := nomatch hh
  found _ _ hh := nomatch hh
  nonzero _ _ _ hh := nomatch hh
  request _ hr := nomatch hr

theorem Goto.handling (h : s.Handling) {pc : RelayPc} (hg : s.Goto pc) : (s.goto pc).Handling := by
  have hframe : pc.Within s.relayPc → (s.goto pc).Handling := fun hpc =>
    h.frame rfl rfl rfl rfl (List.Subset.refl _) hpc (.inr rfl)
  cases hg with
  | closeIdentifier handle hpc =>
    have hrunning := h.running handle (by rw [hpc]; rfl)
    refine ⟨h.identifiers, h.opened, fun _ he => (by cases he), fun c he => ?_, fun c i he => ?_,
      fun _ _ _ he => (by cases he), fun _ he => (by cases he)⟩
    · cases he
      exact hrunning
    · cases he
      rfl
  | getIdentifier handle message hpc hne =>
    have hrunning := h.running handle (by rw [hpc]; rfl)
    refine ⟨h.identifiers, h.opened, fun _ he => (by cases he), fun c he => ?_, fun c i he => ?_,
      fun c m i he => ?_, fun _ he => (by cases he)⟩
    · cases he
      exact hrunning
    · cases he
      rfl
    · cases he
      exact hne
  | noIdentifier handle message | noPacket r => exact hframe (RelayPc.within_idle _)
  | hasRoom r hpc | oldRoom r hpc | oldThread r hpc =>
    exact hframe (RelayPc.within_checkSize (by rw [hpc]; rfl))
  | destroyNothing handle identifier room hpc | closePlayerCount handle identifier hpc =>
    exact hframe (RelayPc.within_closing (by rw [hpc]; rfl) rfl)
  | newRoom r hpc | createRoom r hpc | cleanUp r hpc | getPlayerLimit r hpc
  | playerCount r limit hpc | countConnections r limit hpc =>
    exact hframe (RelayPc.within_request (by rw [hpc]; rfl) rfl)

theorem RelayStep.handling (h : s.Handling) (hst : s.RelayStep s') : s'.Handling := by
  have hsub : ∀ e, s.log ⊆ s.log ++ [e] := fun e => List.subset_append_left _ _
  cases hst with
  | goto pc hg => exact hg.handling h
  | claimIdentifier handle hpc =>
    obtain ⟨-, hfresh⟩ := h.fresh handle hpc
    refine ⟨h.identifiers.claimIdentifier hfresh, fun c hc => ?_, fun _ he => (by cases he),
      fun _ he => (by cases he), fun _ _ he => (by cases he), fun _ _ _ he => (by cases he),
      fun _ he => (by cases he)⟩
    rcases List.mem_cons.1 hc with rfl | hc
    · exact List.mem_append_right _ (List.mem_singleton_self _)
    · -- the other connections keep their identifiers
      refine List.mem_append_left _ ?_
      have hid : (s.server.claimIdentifier handle).getIdentifier c = s.server.getIdentifier c :=
        congrArg (Option.getD · 0) (RelayServer.lookup_claimIdentifier_of_ne (hfresh c hc))
      rw [hid]
      exact h.opened c hc
  | releaseIdentifier handle identifier hpc =>
    have hrunning := h.running handle (by rw [hpc]; rfl)
    refine ⟨h.identifiers.releaseIdentifier, fun c hc => ?_, fun _ he => (by cases he),
      fun _ he => (by cases he), fun _ _ he => (by cases he), fun _ _ _ he => (by cases he),
      fun _ he => (by cases he)⟩
    obtain ⟨hc, hne⟩ := List.mem_filter.1 hc
    have hp : c.pointer ≠ handle.pointer := fun hp =>
      (of_decide_eq_true hne) (h.identifiers.pointers c hc handle hrunning hp)
    have hid : (s.server.releaseIdentifier handle).getIdentifier c = s.server.getIdentifier c := by
      refine congrArg (Option.getD · 0)
        ((RelayServer.Identifiers.lookup_releaseIdentifier c.pointer).trans ?_)
      rw [if_neg hp]
    rw [hid]
    exact h.opened c hc
  | getRoom handle message identifier r pc hpc hr hne hcase =>
    have hfound := h.found handle identifier (by rw [hpc]; rfl)
    have hnonzero := h.nonzero handle message identifier hpc
    have hrunning := h.running handle (by rw [hpc]; rfl)
    subst hr
    have hreq : pc.request = some ⟨handle, message, identifier,
        s.keys.getRoom (Hash.ofBytes message)⟩ := by
      rcases hcase with ⟨rfl, -⟩ | ⟨rfl, -⟩ <;> rfl
    have hpc' : pc.handler = some handle ∧ pc.found = some (handle, identifier) ∧
        (∀ c, pc ≠ .claimIdentifier c) ∧ ∀ c m i, pc ≠ .getRoom c m i := by
      rcases hcase with ⟨rfl, -⟩ | ⟨rfl, -⟩ <;>
        simp [RelayPc.handler, RelayPc.found, RelayPc.closing, RelayPc.request]
    refine ⟨h.identifiers, fun c hc => hsub _ (h.opened c hc), fun c he => ?_, fun c he => ?_,
      fun c i he => ?_, fun c m i he => ?_, fun r he => ?_⟩
    · exact absurd he (hpc'.2.2.1 c)
    · obtain rfl := Option.some.inj (hpc'.1.symm.trans he)
      exact hrunning
    · cases Option.some.inj (hpc'.2.1.symm.trans he)
      exact hfound
    · exact absurd he (hpc'.2.2.2 c m i)
    · obtain rfl := Option.some.inj (hreq.symm.trans he)
      exact ⟨hnonzero, s.keys, Log.lastResolved_snoc, rfl⟩
  | eraseMoon handle identifier hpc | eraseLastMoon handle identifier room hpc =>
    exact h.frame rfl rfl RelayServer.handlePointerToIdentifierMap_eraseMoon
      RelayServer.reservedIdentifiers_eraseMoon (List.Subset.refl _)
      (RelayPc.within_closing (by rw [hpc]; rfl) rfl) (.inl rfl)
  | erasePackets handle identifier room hpc =>
    exact h.frame rfl rfl rfl rfl (hsub _)
      (RelayPc.within_closing (by rw [hpc]; rfl) rfl) (.inl rfl)
  | eraseHandles handle identifier room hpc | removeConnection handle identifier hpc =>
    exact h.frame rfl rfl rfl rfl (List.Subset.refl _)
      (RelayPc.within_closing (by rw [hpc]; rfl) rfl) (.inl rfl)
  | tooShort | noRoom | full | registerHandle =>
    exact h.frame rfl rfl rfl rfl (List.Subset.refl _) (RelayPc.within_idle _) (.inl rfl)
  | unknownKey =>
    exact h.frame rfl rfl rfl rfl (hsub _) (RelayPc.within_idle _) (.inl rfl)
  | appendPacket r hpc =>
    exact h.frame rfl rfl rfl rfl (hsub _) (RelayPc.within_request (by rw [hpc]; rfl) rfl)
      (.inr Log.lastResolved_snoc)
  | startThread r hpc =>
    exact h.frame rfl rfl rfl rfl (List.Subset.refl _)
      (RelayPc.within_checkSize (by rw [hpc]; rfl)) (.inr rfl)
  | addMoon r hpc | insertPackets r hpc | insertHandles r hpc | endJoin r hpc
  | join r room rest t hpc =>
    exact h.frame rfl rfl rfl rfl (List.Subset.refl _)
      (RelayPc.within_request (by rw [hpc]; rfl) rfl) (.inr rfl)

theorem CallStep.handling (h : s.Handling) (hst : s.CallStep s') : s'.Handling := by
  cases hst with
  | onOpen handle hpc hfresh =>
    refine ⟨h.identifiers, h.opened, fun c he => ?_, fun _ he => (by cases he),
      fun _ _ he => (by cases he), fun _ _ _ he => (by cases he), fun _ he => (by cases he)⟩
    cases he
    exact hfresh
  | onMessage handle message hpc hc | onClose handle hpc hc =>
    refine ⟨h.identifiers, h.opened, fun _ he => (by cases he), fun c he => ?_,
      fun _ _ he => (by cases he), fun _ _ _ he => (by cases he), fun _ he => (by cases he)⟩
    cases he
    exact hc
  | endSession | refreshKeys =>
    exact h.frame rfl rfl rfl rfl (List.Subset.refl _) (RelayPc.Within.refl _) (.inr rfl)

theorem RoomStep.connections {t : ℕ} (hst : s.RoomStep t s') :
    s'.connected = s.connected ∧ s'.opened = s.opened ∧
      s'.server.handlePointerToIdentifierMap = s.server.handlePointerToIdentifierMap ∧
      s'.server.reservedIdentifiers = s.server.reservedIdentifiers ∧
      s'.accumulator.handles = s.accumulator.handles ∧ s.log ⊆ s'.log ∧
      Log.lastResolved s'.log = Log.lastResolved s.log := by
  cases hst with
  | noPackets =>
    exact ⟨rfl, rfl, rfl, rfl, PacketAccumulator.handles_getPackets, List.Subset.refl _, rfl⟩
  | getPackets =>
    exact ⟨rfl, rfl, rfl, rfl, PacketAccumulator.handles_getPackets,
      List.subset_append_left _ _, Log.lastResolved_snoc⟩
  | getConnections =>
    exact ⟨rfl, rfl, rfl, rfl, rfl, List.subset_append_left _ _, Log.lastResolved_snoc⟩
  | _ => exact ⟨rfl, rfl, rfl, rfl, rfl, List.Subset.refl _, rfl⟩

theorem WorkerStep.connections {k : Fin threadCount} (hst : s.WorkerStep k s') :
    s'.connected = s.connected ∧ s'.opened = s.opened ∧ s.log ⊆ s'.log ∧
      Log.lastResolved s'.log = Log.lastResolved s.log := by
  cases hst with
  | send => exact ⟨rfl, rfl, List.subset_append_left _ _, Log.lastResolved_snoc⟩
  | _ => exact ⟨rfl, rfl, List.Subset.refl _, rfl⟩

theorem handling_of_reachable (h : (relaySystem keys).Reachable s) : s.Handling := by
  refine System.invariant h handling_init (fun u o hu => ?_) (fun u u' _ hu hst => hst.handling hu)
    (fun u u' _ hu hst => hst.handling hu) ?_ ?_
  · exact hu.frame rfl rfl rfl rfl (List.Subset.refl _) (RelayPc.Within.refl _) (.inr rfl)
  · intro u t u' _ hu _ hst
    obtain ⟨hconnected, hopened, hmap, hres, -, hlog, hlast⟩ := hst.connections
    obtain ⟨-, -, -, hpc, -⟩ := hst.threads
    exact hu.frame hconnected hopened hmap hres hlog (hpc ▸ RelayPc.Within.refl _) (.inr hlast)
  · intro u k u' _ hu hst
    obtain ⟨hconnected, hopened, hlog, hlast⟩ := hst.connections
    obtain ⟨-, -, -, hpc, -, -, hserver⟩ := hst.threads
    exact hu.frame hconnected hopened (by rw [hserver]) (by rw [hserver]) hlog
      (hpc ▸ RelayPc.Within.refl _) (.inr hlast)

/-! ### Registrations -/

/-- What is registered in the rooms. -/
structure Registered (s : System) : Prop where
  owns : ∀ room, ∀ c ∈ s.accumulator.registered room,
    s.server.Owns s.connected c.identifier c.handle
  spoke : ∀ room, ∀ c ∈ s.accumulator.registered room, Log.Spoke s.log room c.handle
  nodup : ∀ room, ((s.accumulator.registered room).map ReceivedConnection.identifier).Nodup
  removed : ∀ h i, s.relayPc = .releaseIdentifier h i → ∀ room,
    ∀ c ∈ s.accumulator.registered room, c.identifier ≠ i
  speaking : ∀ r : SizedRequest, s.relayPc = .registerHandle r → Log.Spoke s.log r.room r.handle

theorem registered_sublist_of_eq {a a' : PacketAccumulator} (h : a' = a) (room : Hash) :
    (a'.registered room).Sublist (a.registered room) := by rw [h]

/-- Steps that register nothing, and take nothing from a connection. -/
theorem Registered.frame (h : s.Registered)
    (hreg : ∀ room, (s'.accumulator.registered room).Sublist (s.accumulator.registered room))
    (howns : ∀ room, ∀ c ∈ s.accumulator.registered room,
      s'.server.Owns s'.connected c.identifier c.handle)
    (hlog : s.log ⊆ s'.log)
    (hremoved : ∀ c i, s'.relayPc = .releaseIdentifier c i → s.relayPc = .releaseIdentifier c i)
    (hspeaking : ∀ r, s'.relayPc = .registerHandle r → s.relayPc = .registerHandle r) :
    s'.Registered where
  owns room c hc := howns room c ((hreg room).subset hc)
  spoke room c hc := (h.spoke room c ((hreg room).subset hc)).mono hlog
  nodup room := (h.nodup room).sublist ((hreg room).map _)
  removed c i he room e hm := h.removed c i (hremoved c i he) room e ((hreg room).subset hm)
  speaking r he := (h.speaking r (hspeaking r he)).mono hlog

theorem registered_init : (System.init keys).Registered where
  owns _ _ hc := nomatch hc
  spoke _ _ hc := nomatch hc
  nodup _ := List.nodup_nil
  removed _ _ he := nomatch he
  speaking _ he := nomatch he

/-- The handler goes on at a program point without special claims about registrations. -/
theorem Registered.goto (h : s.Registered) {pc : RelayPc}
    (hremoved : ∀ c i, pc ≠ .releaseIdentifier c i) (hspeaking : ∀ r, pc ≠ .registerHandle r) :
    (s.goto pc).Registered :=
  h.frame (fun _ => List.Sublist.refl _) h.owns (List.Subset.refl _)
    (fun c i he => absurd he (hremoved c i)) fun r he => absurd he (hspeaking r)

theorem checkSize_ne (r : Request) : (∀ c i, r.checkSize ≠ .releaseIdentifier c i) ∧
    ∀ r', r.checkSize ≠ .registerHandle r' := by
  unfold Request.checkSize
  split_ifs <;> simp

theorem Goto.registered (h : s.Registered) {pc : RelayPc} (hg : s.Goto pc) :
    (s.goto pc).Registered := by
  cases hg with
  | hasRoom r | oldRoom r | oldThread r => exact h.goto (checkSize_ne r).1 (checkSize_ne r).2
  | _ => exact h.goto (fun _ _ he => by cases he) fun _ he => by cases he

theorem RelayStep.registered (h : s.Registered) (hh : s.Handling) (hst : s.RelayStep s') :
    s'.Registered := by
  have hsub : ∀ e, s.log ⊆ s.log ++ [e] := fun e => List.subset_append_left _ _
  -- a room is emptied, all others keep their registrations
  have hempty : ∀ (room r : Hash), (if r = room then [] else s.accumulator.registered r).Sublist
      (s.accumulator.registered r) := by
    intro room r
    split_ifs
    · exact List.nil_sublist _
    · exact List.Sublist.refl _
  cases hst with
  | goto pc hg => exact hg.registered h
  | claimIdentifier handle hpc =>
    obtain ⟨-, hfresh⟩ := hh.fresh handle hpc
    refine h.frame (fun room => ?_) (fun room c hc => (h.owns room c hc).claimIdentifier hfresh)
      (hsub _) (fun _ _ he => by cases he) fun _ he => by cases he
    exact registered_sublist_of_eq RelayServer.packetAccumulator_claimIdentifier room
  | eraseMoon handle identifier hpc | eraseLastMoon handle identifier room hpc =>
    refine h.frame (fun room => ?_) (fun room c hc => ?_) (List.Subset.refl _)
      (fun _ _ he => by cases he) fun _ he => by cases he
    · exact registered_sublist_of_eq RelayServer.packetAccumulator_eraseMoon room
    · exact (RelayServer.Owns.congr RelayServer.handlePointerToIdentifierMap_eraseMoon).2
        (h.owns room c hc)
  | eraseHandles handle identifier room hpc =>
    refine h.frame (fun r => ?_) h.owns (List.Subset.refl _) (fun _ _ he => by cases he)
      fun _ he => by cases he
    exact (PacketAccumulator.registered_eraseHandles r) ▸ hempty room r
  | insertHandles r hpc =>
    refine h.frame (fun room => ?_) h.owns (List.Subset.refl _) (fun _ _ he => by cases he)
      fun _ he => by cases he
    exact (PacketAccumulator.registered_insertHandles room) ▸ hempty r.room room
  | removeConnection handle identifier hpc =>
    have hmem : ∀ room c, c ∈ (s.accumulator.removeConnection identifier).registered room ↔
        c ∈ s.accumulator.registered room ∧ c.identifier ≠ identifier := by
      intro room c
      rw [PacketAccumulator.registered_removeConnection,
        PacketAccumulator.mem_eraseP_identifier (h.nodup room)]
    refine ⟨fun room c hc => h.owns room c ((hmem room c).1 hc).1,
      fun room c hc => h.spoke room c ((hmem room c).1 hc).1, fun room => ?_,
      fun c i he room e hm => ?_, fun _ he => by cases he⟩
    · refine (h.nodup room).sublist (List.Sublist.map _ ?_)
      exact (PacketAccumulator.registered_removeConnection identifier room) ▸ List.eraseP_sublist
    · cases he
      exact ((hmem room e).1 hm).2
  | releaseIdentifier handle identifier hpc =>
    have hrunning := hh.running handle (by rw [hpc]; rfl)
    have hfound := hh.found handle identifier (by rw [hpc]; rfl)
    refine h.frame (fun room => ?_) (fun room c hc => ?_) (List.Subset.refl _)
      (fun _ _ he => by cases he) fun _ he => by cases he
    · exact registered_sublist_of_eq RelayServer.packetAccumulator_releaseIdentifier room
    · exact (h.owns room c hc).releaseIdentifier hh.identifiers hrunning
        (hfound ▸ h.removed handle identifier hpc room c hc)
  | appendPacket r hpc hr =>
    have hreg := @PacketAccumulator.registered_appendPacket s.accumulator r.room r.packet r.handle
      r.message
    have hframe : ∀ e, (s.record e).Registered := fun e =>
      h.frame (fun _ => List.Sublist.refl _) h.owns (hsub e) (fun _ _ he => he) fun _ he => he
    refine ⟨fun room c hc => h.owns room c (hreg room ▸ hc),
      fun room c hc => (hframe _).spoke room c (hreg room ▸ hc),
      fun room => hreg room ▸ h.nodup room, fun _ _ he => (by cases he), fun r' he => ?_⟩
    cases he
    exact ⟨s.newPacket r, _, List.mem_append_right _ (List.mem_singleton_self _), rfl⟩
  | registerHandle r hpc =>
    have hown := hh.owns (r := r.toRequest) (by rw [hpc]; rfl)
    have hspoke := h.speaking r hpc
    refine ⟨fun room c hc => ?_, fun room c hc => ?_,
      PacketAccumulator.nodup_registerHandle h.nodup _ _, fun _ _ he => (by cases he),
      fun _ he => by cases he⟩
    · rcases PacketAccumulator.mem_registered_registerHandle hc with hc | ⟨-, rfl⟩
      · exact h.owns room c hc
      · exact hown
    · rcases PacketAccumulator.mem_registered_registerHandle hc with hc | ⟨rfl, rfl⟩
      · exact h.spoke room c hc
      · exact hspoke
  | getRoom handle message identifier r pc hpc hr hne hcase =>
    have hframe : (s.record (.resolved handle message s.keys)).Registered :=
      h.frame (fun _ => List.Sublist.refl _) h.owns (hsub _) (fun _ _ he => he) fun _ he => he
    rcases hcase with ⟨rfl, -⟩ | ⟨rfl, -⟩ <;>
      exact hframe.goto (fun _ _ he => by cases he) fun _ he => by cases he
  | startThread r hpc =>
    exact h.frame (fun _ => List.Sublist.refl _) h.owns (List.Subset.refl _)
      (fun c i he => absurd he ((checkSize_ne r).1 c i))
      fun r' he => absurd he ((checkSize_ne r).2 r')
  | erasePackets handle identifier room hpc =>
    exact h.frame (fun _ => List.Sublist.refl _) h.owns (hsub _)
      (fun _ _ he => by cases he) fun _ he => by cases he
  | unknownKey =>
    exact h.frame (fun _ => List.Sublist.refl _) h.owns (hsub _)
      (fun _ _ he => by cases he) fun _ he => by cases he
  | tooShort | addMoon | noRoom | insertPackets | endJoin | join | full =>
    exact h.frame (fun _ => List.Sublist.refl _) h.owns (List.Subset.refl _)
      (fun _ _ he => by cases he) fun _ he => by cases he

theorem CallStep.registered (h : s.Registered) (hst : s.CallStep s') : s'.Registered := by
  cases hst with
  | onOpen | onMessage | onClose =>
    exact h.frame (fun _ => List.Sublist.refl _) h.owns (List.Subset.refl _)
      (fun _ _ he => by cases he) fun _ he => by cases he
  | endSession | refreshKeys =>
    exact h.frame (fun _ => List.Sublist.refl _) h.owns (List.Subset.refl _) (fun _ _ he => he)
      fun _ he => he

theorem registered_of_reachable (h : (relaySystem keys).Reachable s) : s.Registered := by
  refine System.invariant h registered_init (fun u o hu => ?_)
    (fun u u' _ hu hst => hst.registered hu)
    (fun u u' hr hu hst => hst.registered hu (handling_of_reachable hr)) ?_ ?_
  · exact hu.frame (fun _ => List.Sublist.refl _) hu.owns (List.Subset.refl _) (fun _ _ he => he)
      fun _ he => he
  · intro u t u' _ hu _ hst
    obtain ⟨hconnected, -, hmap, -, hhandles, hlog, -⟩ := hst.connections
    obtain ⟨-, -, -, hpc, -⟩ := hst.threads
    refine hu.frame (fun room => ?_) (fun room c hc => ?_) hlog (by simp [hpc]) (by simp [hpc])
    · rw [PacketAccumulator.registered, hhandles]
      exact List.Sublist.refl _
    · rw [hconnected]
      exact (RelayServer.Owns.congr hmap).2 (hu.owns room c hc)
  · intro u k u' _ hu hst
    obtain ⟨hconnected, -, hlog, -⟩ := hst.connections
    obtain ⟨-, -, -, hpc, -, -, hserver⟩ := hst.threads
    refine hu.frame (fun room => ?_) (fun room c hc => ?_) hlog (by simp [hpc]) (by simp [hpc])
    · rw [accumulator, hserver]
    · rw [hconnected, hserver]
      exact hu.owns room c hc

end System

end MoonJamRelay
