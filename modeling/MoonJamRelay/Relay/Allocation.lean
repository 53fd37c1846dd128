import MoonJamRelay.Relay.Invariant

/-!
# Identifier allocation

`claimIdentifier` gives a new connection the largest free identifier in `[1, 65534]`.  When none is
free the connection stays open without one, and every handler treats `getIdentifier = 0` as "this
connection does nothing".

* `getIdentifier_onOpen` : opening a connection does not touch the identifiers of the others.
* `getIdentifier_stable` : a connection keeps its identifier until it is closed.
* `onClose_of_no_identifier` : a connection without identifier leaves no trace.
* `identifier_allocation` : the main result.
-/

namespace MoonJamRelay

namespace RelayServer

variable {s : RelayServer} {connected : List ConnectionHdl} {c d handle : ConnectionHdl}

theorem getIdentifier_onOpen_of_ne (h : c.pointer ≠ handle.pointer) :
    (s.onOpen handle).getIdentifier c = s.getIdentifier c := by
  unfold RelayServer.onOpen claimIdentifier RelayServer.getIdentifier
  simp only
  split_ifs
  · rfl
  · rw [UnorderedMap.lookup_insert_eq, if_neg h]

theorem getIdentifier_onOpen (h : s.Identifiers connected)
    (hfresh : ∀ c ∈ connected, c.pointer ≠ handle.pointer) :
    (s.onOpen handle).getIdentifier handle =
      claimLoop s.reservedIdentifiers (uint16Max - 1) := by
  have hnone : s.handlePointerToIdentifierMap.lookup handle.pointer = none := by
    cases hl : s.handlePointerToIdentifierMap.lookup handle.pointer with
    | none => rfl
    | some j =>
      obtain ⟨c, hc, he⟩ := h.owner _ j hl
      exact absurd he (hfresh c hc)
  unfold RelayServer.onOpen claimIdentifier RelayServer.getIdentifier
  simp only
  split_ifs with h0
  · simp [hnone, h0]
  · simp

theorem getIdentifier_onClose_of_ne (h : c.pointer ≠ handle.pointer) :
    (s.onClose handle).1.getIdentifier c = s.getIdentifier c := by
  simp [RelayServer.getIdentifier, lookup_onClose, h]

theorem getIdentifier_onMessage {atRoom atLimit : KeyManager} {message : List UInt8}
    {s' : RelayServer} {reply : Reply}
    (hr : s.MessageResult atRoom atLimit handle message s' reply) (c : ConnectionHdl) :
    s'.getIdentifier c = s.getIdentifier c := by
  cases hr <;> simp [RelayServer.getIdentifier, RelayServer.addPacket]

theorem Identifiers.getIdentifier_inj (h : s.Identifiers connected) (hc : c ∈ connected)
    (hd : d ∈ connected) (h0 : s.getIdentifier c ≠ 0)
    (he : s.getIdentifier c = s.getIdentifier d) : c = d :=
  h.eq_of_owns ⟨hc, lookup_of_getIdentifier_ne_zero h0⟩
    ⟨hd, he ▸ lookup_of_getIdentifier_ne_zero (he ▸ h0)⟩

theorem onMessage_of_no_identifier (h0 : s.getIdentifier handle = 0) (message : List UInt8)
    (atRoom atLimit : KeyManager) :
    s.onMessage atRoom atLimit handle message = (s, .noIdentifier) := by
  simp [RelayServer.onMessage, h0]

theorem onClose_of_no_identifier (h : s.Invariant connected)
    (h0 : s.getIdentifier handle = 0) : s.onClose handle = (s, none) := by
  have hmoon : s.moonIdentifierToRoomMap.lookup 0 = none := by
    cases hl : s.moonIdentifierToRoomMap.lookup 0 with
    | none => rfl
    | some room =>
      obtain ⟨c, hc⟩ := h.tables.moons 0 room hl
      exact absurd rfl (h.identifiers.ne_zero hc.2)
  have herase : s.eraseMoon 0 = (s, none) := by simp [eraseMoon, hmoon]
  have hrelease : s.releaseIdentifier handle = s := by
    simp [RelayServer.releaseIdentifier, h.identifiers.lookup_of_getIdentifier_eq_zero h0]
  -- no room lists the identifier 0
  have hremove : s.removeConnection 0 = s := by
    have hself := PacketAccumulator.removeConnection_eq_self (a := s.packetAccumulator) (i := 0)
      fun r e he => h.identifiers.ne_zero (h.tables.registered r e he).2
    simp [removeConnection, hself]
  simp [RelayServer.onClose, h0, herase, destroyIfSome, hremove, hrelease]

end RelayServer

variable {w w' : World}

theorem getIdentifier_next {c : ConnectionHdl} {call : Call} (hc : c ∈ w.connected)
    (h : w.server.Invariant w.connected) (hcall : call ≠ .onClose c)
    (hst : relay.next w call = some w') :
    c ∈ w'.connected ∧ w'.server.getIdentifier c = w.server.getIdentifier c := by
  cases call with
  | onOpen handle =>
    obtain ⟨hfresh, rfl⟩ := World.next_onOpen.1 hst
    exact ⟨List.mem_cons_of_mem _ hc,
      RelayServer.getIdentifier_onOpen_of_ne (hfresh.2 c hc)⟩
  | onClose handle =>
    obtain ⟨hh, rfl⟩ := World.next_onClose.1 hst
    have hne : c ≠ handle := fun e => hcall (e ▸ rfl)
    exact ⟨by simpa using ⟨hc, hne⟩, RelayServer.getIdentifier_onClose_of_ne fun hp =>
      hne (h.identifiers.pointers c hc handle hh hp)⟩
  | onMessage handle message atRoom atLimit =>
    obtain ⟨-, rfl⟩ := World.next_onMessage.1 hst
    exact ⟨hc, RelayServer.getIdentifier_onMessage (RelayServer.onMessage_result _ _ _ _ _) c⟩
  | getPackets room =>
    obtain rfl := World.next_getPackets.1 hst
    exact ⟨hc, rfl⟩

/-- An open connection keeps its identifier in every run that does not close it. -/
theorem getIdentifier_stable {c : ConnectionHdl} (hc : c ∈ w.connected) (h : relay.Reachable w)
    (hr : (relay.restrict fun _ call => call ≠ .onClose c).Reaches w w') :
    w'.server.getIdentifier c = w.server.getIdentifier c := by
  refine (hr.invariant (I := fun u => relay.Reachable u ∧ c ∈ u.connected ∧
    u.server.getIdentifier c = w.server.getIdentifier c) ⟨h, hc, rfl⟩ ?_).2.2
  rintro u call u' - ⟨hu, huc, hui⟩ hst
  obtain ⟨hcall, hst⟩ := Machine.restrict_next.1 hst
  obtain ⟨hc', hi'⟩ := getIdentifier_next huc (invariant_of_reachable hu) hcall hst
  exact ⟨hu.step hst, hc', hi'.trans hui⟩

/-- **Identifier allocation.**  In every reachable world the pointer map is injective and the
reserved identifiers are its values, without repetition, in `[1, 65534]`; opening a connection gives
it an identifier no other open connection has exactly when fewer than 65534 are reserved; an open
connection keeps its identifier until its close; and the opening, the messages and the close of a
connection that gets none change nothing. -/
theorem identifier_allocation (h : relay.Reachable w) :
    (∀ p p' i, w.server.handlePointerToIdentifierMap.lookup p = some i →
      w.server.handlePointerToIdentifierMap.lookup p' = some i → p = p') ∧
    w.server.reservedIdentifiers.Nodup ∧
    (∀ i, i ∈ w.server.reservedIdentifiers ↔
      ∃ p, w.server.handlePointerToIdentifierMap.lookup p = some i) ∧
    (∀ i ∈ w.server.reservedIdentifiers, 1 ≤ i.toNat ∧ i.toNat ≤ 65534) ∧
    (∀ c w', relay.next w (.onOpen c) = some w' →
      ((w'.server.getIdentifier c ≠ 0 ∧ ∀ d ∈ w'.connected, d ≠ c →
          w'.server.getIdentifier d ≠ w'.server.getIdentifier c) ↔
        w.server.reservedIdentifiers.length < 65534) ∧
      (w'.server.getIdentifier c = 0 → w'.server = w.server)) ∧
    (∀ c ∈ w.connected, ∀ w', (relay.restrict fun _ call => call ≠ .onClose c).Reaches w w' →
      w'.server.getIdentifier c = w.server.getIdentifier c) ∧
    ∀ c ∈ w.connected, w.server.getIdentifier c = 0 →
      (∀ message atRoom atLimit,
        (w.server.onMessage atRoom atLimit c message).1 = w.server) ∧
      (w.server.onClose c).1 = w.server := by
  have hi := invariant_of_reachable h
  refine ⟨hi.identifiers.injective, hi.identifiers.reserved_nodup, hi.identifiers.reserved_iff,
    hi.identifiers.range, fun c w' hst => ?_, fun c hc w' hr => getIdentifier_stable hc h hr,
    fun c hc h0 => ⟨fun message atRoom atLimit => ?_, ?_⟩⟩
  · have hi' := invariant_next hi hst
    obtain ⟨hfresh, rfl⟩ := World.next_onOpen.1 hst
    have hfree := RelayServer.claimLoop_ne_zero_iff hi.identifiers.reserved_nodup
      hi.identifiers.range
    have hclaim := RelayServer.getIdentifier_onOpen hi.identifiers hfresh.2
    rw [show (65534 : ℕ) = uint16Max - 1 from rfl, ← hfree, ← hclaim]
    refine ⟨⟨And.left, fun h0 => ⟨h0, fun d hd hne he => hne ?_⟩⟩, fun h0 => ?_⟩
    · exact hi'.identifiers.getIdentifier_inj hd List.mem_cons_self (he ▸ h0) he
    · have hnone := hclaim.symm.trans h0
      simp only [RelayServer.onOpen, RelayServer.claimIdentifier, hnone, if_true]
  · rw [RelayServer.onMessage_of_no_identifier h0]
  · rw [RelayServer.onClose_of_no_identifier hi h0]

/-- Both connections of the run hold identifiers; the moon client keeps its own. -/
theorem identifier_allocation_moonWorld :
    moonWorld.server.reservedIdentifiers = [65534, 65533] ∧
    (∀ i ∈ moonWorld.server.reservedIdentifiers, 1 ≤ i.toNat ∧ i.toNat ≤ 65534) ∧
    ∀ w', (relay.restrict fun _ call => call ≠ .onClose moonHandle).Reaches moonWorld w' →
      w'.server.getIdentifier moonHandle = moonWorld.server.getIdentifier moonHandle :=
  ⟨by decide, (identifier_allocation moonWorld_reachable).2.2.2.1,
    (identifier_allocation moonWorld_reachable).2.2.2.2.2.1 moonHandle (by decide)⟩

end MoonJamRelay
