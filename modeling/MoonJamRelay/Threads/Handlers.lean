import MoonJamRelay.Threads.Connections

/-!
# The handlers of the relay

What a section of the relay thread does to the handler that is running.

* `RelayPc.message`, `RelayPc.ending` : the message, or the end of a connection, that is being
  handled.
* `RelayPc.Stays` : the handler goes on, or it returns.
* `RelayStep.stays` : every section opens a connection, or forgets one, or leaves them alone.
-/

namespace MoonJamRelay

/-- The message that is being handled, with its connection. -/
def RelayPc.message : RelayPc → Option (ConnectionHdl × List UInt8)
  | getIdentifier handle message | getRoom handle message _ => some (handle, message)
  | pc => pc.request.map fun r => (r.handle, r.message)

namespace RelayPc

variable {pc : RelayPc}

/-- The connection that is being closed. -/
def ending : RelayPc → Option ConnectionHdl
  | closeIdentifier handle => some handle
  | pc => pc.closing.map Prod.fst

/-- The handler that was running goes on, or it returns. -/
structure Stays (pc' pc : RelayPc) : Prop where
  entering : ∀ handle, pc' ≠ claimIdentifier handle
  ending : ∀ handle, pc'.ending = some handle → pc.ending = some handle
  message : ∀ x, pc'.message = some x → pc.message = some x

theorem stays_idle (pc : RelayPc) : idle.Stays pc :=
  ⟨fun _ h => (by cases h), fun _ h => (by cases h), fun _ h => (by cases h)⟩

theorem stays_checkSize {r : Request} (hpc : pc.message = some (r.handle, r.message)) :
    r.checkSize.Stays pc := by
  rw [Request.checkSize]
  split_ifs
  · exact stays_idle pc
  · exact ⟨fun _ h => (by cases h), fun _ h => (by cases h), fun x h => hpc.trans h⟩

theorem handler_of_message {x : ConnectionHdl × List UInt8} (h : pc.message = some x) :
    pc.handler = some x.1 := by
  cases pc <;> simp only [message, request, Option.map_some, Option.map_none, Option.some.injEq,
    reduceCtorEq] at h <;> subst h <;> rfl

end RelayPc

namespace System

variable {keys : KeyManager} {s s' : System}

theorem RelayStep.stays (hst : s.RelayStep s') :
    (∃ handle, s.relayPc = .claimIdentifier handle ∧ s'.opened = handle :: s.opened ∧
      s'.connected = handle :: s.connected ∧ s'.relayPc = .idle) ∨
    (∃ handle, s.relayPc.ending = some handle ∧ s'.opened = s.opened ∧
      s'.connected = s.connected.filter (fun c => c ≠ handle) ∧ s'.relayPc = .idle) ∨
    s'.opened = s.opened ∧ s'.connected = s.connected ∧ s'.relayPc.Stays s.relayPc := by
  have hsame : ∀ {pc : RelayPc}, (∀ handle, pc ≠ .claimIdentifier handle) →
      pc.ending = s.relayPc.ending → pc.message = s.relayPc.message → pc.Stays s.relayPc :=
    fun h₁ h₂ h₃ => ⟨h₁, fun _ h => h₂ ▸ h, fun _ h => h₃ ▸ h⟩
  cases hst with
  | goto pc hg =>
    refine .inr (.inr ⟨rfl, rfl, ?_⟩)
    change pc.Stays s.relayPc
    cases hg with
    | noIdentifier | noPacket => exact RelayPc.stays_idle _
    | hasRoom r hpc | oldRoom r hpc | oldThread r hpc =>
      exact RelayPc.stays_checkSize (by rw [hpc]; rfl)
    | closeIdentifier handle hpc | destroyNothing handle _ _ hpc | closePlayerCount handle _ hpc
    | getIdentifier handle message hpc | newRoom r hpc | createRoom r hpc | cleanUp r hpc
    | getPlayerLimit r hpc | playerCount r _ hpc | countConnections r _ hpc =>
      refine hsame (fun _ h => (by cases h)) ?_ ?_ <;> rw [hpc] <;> rfl
  | claimIdentifier handle hpc => exact .inl ⟨handle, hpc, rfl, rfl, rfl⟩
  | releaseIdentifier handle i hpc =>
    exact .inr (.inl ⟨handle, by rw [hpc]; rfl, rfl, rfl, rfl⟩)
  | tooShort | unknownKey | noRoom | full | registerHandle =>
    exact .inr (.inr ⟨rfl, rfl, RelayPc.stays_idle _⟩)
  | startThread r hpc =>
    exact .inr (.inr ⟨rfl, rfl, RelayPc.stays_checkSize (by rw [hpc]; rfl)⟩)
  | getRoom handle message i r pc hpc hr hne hcase =>
    subst hr
    refine .inr (.inr ⟨rfl, rfl, ?_⟩)
    obtain ⟨rfl, -⟩ | ⟨rfl, -⟩ := hcase <;> refine hsame (fun _ h => (by cases h)) ?_ ?_ <;>
      rw [hpc] <;> rfl
  | eraseMoon _ _ hpc | eraseLastMoon _ _ _ hpc | erasePackets _ _ _ hpc | eraseHandles _ _ _ hpc
  | removeConnection _ _ hpc | addMoon _ hpc | insertPackets _ hpc | insertHandles _ hpc
  | endJoin _ hpc | join _ _ _ _ hpc | appendPacket _ hpc =>
    refine .inr (.inr ⟨rfl, rfl, hsame (fun _ h => (by cases h)) ?_ ?_⟩) <;> rw [hpc] <;> rfl

theorem RoomStep.sessions {t : ℕ} (hst : s.RoomStep t s') : s'.sessions = s.sessions := by
  cases hst <;> rfl

theorem WorkerStep.sessions {k : Fin threadCount} (hst : s.WorkerStep k s') :
    s'.sessions = s.sessions := by
  cases hst <;> rfl

end System

end MoonJamRelay
