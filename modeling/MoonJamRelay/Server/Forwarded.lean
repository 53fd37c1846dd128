import MoonJamRelay.Server.Relayed

/-!
# From one client to another

What the relay accepts from a connection are messages that the connection has handed over, in that
order: the handler of a message runs to its end before the next one is called.

* `Log.acceptedFrom` : the messages of a connection whose packets were accepted, in any room.
* `Server.Accepting` : the invariant.
* `forwarded` : what a client reads of the messages of another client.
-/

namespace MoonJamRelay

open Websocket (Connection Callback Config Message readAll)

/-! ### What is accepted -/

/-- The message of the connection whose packet was accepted. -/
def LogEntry.acceptedFrom (handle : ConnectionHdl) : LogEntry → List (List UInt8)
  | .accepted _ packet _ => if packet.sender = handle then [packet.message] else []
  | _ => []

namespace Log

variable {log : List LogEntry} {handle : ConnectionHdl} {room : Hash}

/-- The messages of the connection whose packets were accepted. -/
def acceptedFrom (log : List LogEntry) (handle : ConnectionHdl) : List (List UInt8) :=
  log.flatMap (LogEntry.acceptedFrom handle)

theorem acceptedFrom_snoc {e : LogEntry} :
    acceptedFrom (log ++ [e]) handle = acceptedFrom log handle ++ e.acceptedFrom handle := by
  simp [acceptedFrom]

end Log

/-! ### The message that is being handled -/

/-- The message that is being handled, as long as its packet was not accepted. -/
def RelayPc.unread : RelayPc → Option (ConnectionHdl × List UInt8)
  | registerHandle _ => none
  | pc => pc.message

theorem RelayPc.unread_eq {pc : RelayPc} (h : ∀ r, pc ≠ registerHandle r) :
    pc.unread = pc.message := by
  cases pc with
  | registerHandle r => exact absurd rfl (h r)
  | _ => rfl

theorem RelayPc.message_of_unread {pc : RelayPc} {x : ConnectionHdl × List UInt8}
    (h : pc.unread = some x) : pc.message = some x := by
  cases pc with
  | registerHandle r => cases h
  | _ => exact h

namespace System

variable {s s' : System}

/-- When a packet was accepted, the handler returns next. -/
theorem RelayStep.idle_of_registerHandle (hst : s.RelayStep s') {r : SizedRequest}
    (hpc : s.relayPc = .registerHandle r) : s'.relayPc = .idle := by
  cases hst with
  | goto pc hg => cases hg <;> simp_all
  | registerHandle => rfl
  | _ => simp_all

/-- The message that is being handled stays, or it is accepted, or the handler returns. -/
theorem RelayStep.unread (hst : s.RelayStep s') :
    (∃ r : SizedRequest, ∃ registered, s.relayPc.unread = some (r.handle, r.message) ∧
      s'.relayPc.unread = none ∧
      s'.log = s.log ++ [.accepted r.room (s.newPacket r) registered]) ∨
    (∀ g, Log.acceptedFrom s'.log g = Log.acceptedFrom s.log g) ∧
      ∀ x, s'.relayPc.unread = some x → s.relayPc.unread = some x := by
  have hstays : ∀ x, s'.relayPc.unread = some x → s.relayPc.unread = some x := by
    intro x hx
    have hx' := RelayPc.message_of_unread hx
    rcases hst.stays with ⟨_, -, -, -, hidle⟩ | ⟨_, -, -, -, hidle⟩ | ⟨-, -, hstays⟩
    · rw [hidle] at hx
      cases hx
    · rw [hidle] at hx
      cases hx
    · rw [RelayPc.unread_eq fun r hr => ?_]
      · exact hstays.message x hx'
      · rw [hst.idle_of_registerHandle hr] at hx
        cases hx
  cases hst with
  | appendPacket r hpc => exact .inl ⟨r, _, by rw [hpc]; rfl, rfl, rfl⟩
  | claimIdentifier | erasePackets | unknownKey | getRoom =>
    exact .inr ⟨fun g => Log.acceptedFrom_snoc.trans (List.append_nil _), hstays⟩
  | _ => exact .inr ⟨fun g => rfl, hstays⟩

theorem RoomStep.acceptedFrom {t : ℕ} (hst : s.RoomStep t s') (handle : ConnectionHdl) :
    Log.acceptedFrom s'.log handle = Log.acceptedFrom s.log handle := by
  cases hst with
  | getPackets | getConnections => exact Log.acceptedFrom_snoc.trans (List.append_nil _)
  | _ => rfl

theorem WorkerStep.acceptedFrom {k : Fin threadCount} (hst : s.WorkerStep k s')
    (handle : ConnectionHdl) : Log.acceptedFrom s'.log handle = Log.acceptedFrom s.log handle := by
  cases hst with
  | send => exact Log.acceptedFrom_snoc.trans (List.append_nil _)
  | _ => rfl

end System

namespace Server

variable {keys : KeyManager} {s s' : System} {cs cs' : Connections} {handle : ConnectionHdl}
  {c : Connection}

/-! ### The invariant -/

/-- The messages that a connection has handed over. -/
def handed (c : Connection) : List (List UInt8) :=
  (c.callbacks.filterMap Callback.message?).map Message.payload

/-- The message of the connection that is being handled, as long as its packet was not accepted. -/
def unread (s : System) (handle : ConnectionHdl) : List (List UInt8) :=
  (s.relayPc.unread.toList.filter fun x => x.1 = handle).map Prod.snd

/-- What was accepted from a connection, and what is being handled, was handed over in that
order. -/
def Accepting (s : System) (cs : Connections) : Prop :=
  ∀ g, (Log.acceptedFrom s.log g ++ unread s g).Sublist (handed (cs g))

theorem unread_none (h : s.relayPc.unread = none) (g : ConnectionHdl) : unread s g = [] := by
  rw [unread, h]
  rfl

theorem unread_sublist (h : ∀ x, s'.relayPc.unread = some x → s.relayPc.unread = some x)
    (g : ConnectionHdl) : (unread s' g).Sublist (unread s g) := by
  cases hx : s'.relayPc.unread with
  | none =>
    rw [unread_none hx]
    exact List.nil_sublist _
  | some x =>
    rw [unread, unread, hx, h x hx]

theorem Accepting.frame (h : Accepting s cs)
    (hlog : ∀ g, Log.acceptedFrom s'.log g = Log.acceptedFrom s.log g)
    (hpc : ∀ x, s'.relayPc.unread = some x → s.relayPc.unread = some x)
    (hcalls : ∀ g, handed (cs' g) = handed (cs g)) : Accepting s' cs' := by
  intro g
  rw [hlog, hcalls]
  exact ((List.Sublist.refl _).append (unread_sublist hpc g)).trans (h g)

theorem Accepting.relay (h : Accepting s cs) (hst : s.RelayStep s')
    (hcalls : ∀ g, handed (cs' g) = handed (cs g)) : Accepting s' cs' := by
  rcases hst.unread with ⟨r, registered, hunread, hnone, hlog⟩ | ⟨hlog, hpc⟩
  · intro g
    have hg := h g
    rw [unread, hunread] at hg
    rw [hcalls, unread_none hnone, List.append_nil, hlog, Log.acceptedFrom_snoc]
    refine List.Sublist.trans (List.Sublist.append (List.Sublist.refl _) ?_) hg
    by_cases hr : r.handle = g
    · simp [LogEntry.acceptedFrom, System.newPacket, hr]
    · simp [LogEntry.acceptedFrom, System.newPacket, hr]
  · exact h.frame hlog hpc hcalls

end Server

end MoonJamRelay
