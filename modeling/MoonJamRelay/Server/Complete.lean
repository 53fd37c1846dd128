import MoonJamRelay.Server.Relayed

/-!
# Nothing is lost

* `mem_receivedBy` : what was accepted for a connection that is still open was sent to it.
* `nothing_lost` : what a client has read when everything has come to rest.
-/

namespace MoonJamRelay

open Websocket (Connection Config Message readAll)

namespace Server

variable {keys : KeyManager} {handle : ConnectionHdl} {room : Hash} {q : Packet}
  {e : ReceivedConnection}

/-- When no tick of the room is going on, whatever was accepted for a connection that is still open
was sent to it. -/
theorem mem_receivedBy {u : System × Connections} (h : (relayServer keys).Reachable u)
    (hs : (u.2 e.handle).state = .opened) (ha : Log.Attends u.1.log room q e)
    (hne : q.sender ≠ e.handle) (hpending : q ∉ u.1.accumulator.pending room)
    (hrest : ∀ t, (u.1.threads t).room = room → ¬ (u.1.threads t).pc.InTick) :
    q ∈ Log.receivedBy u.1.log e.handle room := by
  have hr := h.coupled.1
  have hrecorded := System.recorded_of_reachable hr
  have hvalid := hrecorded.valid
  have hattended := System.attended_of_reachable hr
  have hsession : e.handle ∈ u.1.sessions := by
    refine ((linked_of_reachable h).sessions e.handle ?_).2 hs
    exact hrecorded.opened _ _ (hvalid.attends ha).1
  -- a tick took the packet, and is over
  obtain ⟨t, n, batch, hb, hq⟩ :=
    hvalid.took_of_attends ha (hrecorded.pending room ▸ hpending)
  have hlogged := (System.ticks_of_reachable hr).logged t
  have hroom := (hlogged.took_le n room batch hb).1
  obtain ⟨connections, hl, hall⟩ :=
    (hlogged.finished n room batch hb).resolve_left fun hin => hrest t hroom hin.2
  -- the tick listed the connection, and its job has sent the packet
  obtain ⟨i, hi, he⟩ := List.mem_iff_getElem.1
    (hattended.listed t n connections room batch q e hl hb hq ha hsession)
  obtain ⟨c, room', bytes, parts, delivered, hsent⟩ := hall i hi
  obtain ⟨batch', connections', hb', hl', hc, -, hparts⟩ := hvalid.sent_spec hsent
  obtain rfl := hvalid.listed_unique hl hl'
  obtain ⟨rfl, rfl⟩ := hvalid.took_unique hb hb'
  obtain rfl : c = e := by
    rw [List.getElem?_eq_getElem hi, he] at hc
    exact (Option.some.inj hc).symm
  have hdelivered : delivered = true := by
    cases delivered with
    | false => exact absurd hsession (hattended.undelivered _ _ _ _ _ hsent)
    | true => rfl
  refine List.mem_flatMap.2 ⟨_, hsent, ?_⟩
  rw [LogEntry.receivedBy, if_pos ⟨rfl, rfl, hdelivered⟩, hparts]
  refine List.mem_filter.2 ⟨hq, ?_⟩
  simpa using ((hvalid.attends ha).2 hne.symm).symm

/-- **Nothing is lost**: when a connection is open and has nothing to do and its client has read all
bytes, then the client has read every packet of another connection that was accepted into a room
while the connection was registered there, unless the packet waits for the next tick, a tick of the
room is going on, or the room was destroyed since. -/
theorem nothing_lost (keys : KeyManager) (u : System × Connections)
    (h : (relayServer keys).Reachable u) (handle : ConnectionHdl) (client : Config)
    (hclient : client.server = false)
    (hsize : ∀ x ∈ Log.sentTo u.1.log handle, (payloads x.2).length ≤ client.maxMessageSize)
    (bufs : List (List UInt8)) (hbufs : bufs.flatten = (u.2 handle).writer.wire) :
    ∃ msgs p got, readAll client .new bufs = (msgs, .ok p) ∧
      msgs.filter Message.isData =
        got.map (fun x : Hash × List Packet => { opcode := .binary, payload := payloads x.2 }) ∧
      ((u.2 handle).Idle → ∀ room q e, Log.Attends u.1.log room q e → e.handle = handle →
        q.sender ≠ handle → q ∉ u.1.accumulator.pending room →
        (∀ t, (u.1.threads t).room = room → ¬ (u.1.threads t).pc.InTick) →
        q ∈ (sentBy room got).flatten) := by
  obtain ⟨msgs, p, got, hread, hmsgs, -, hall⟩ :=
    calls_read h hclient hsize (hbufs.symm ▸ List.prefix_rfl : bufs.flatten <+: _)
  refine ⟨msgs, p, got, hread, hmsgs, fun hidle room q e ha he hne hpending hrest => ?_⟩
  subst he
  rw [hall hidle hbufs room, Log.flatten_sentTo]
  exact mem_receivedBy h hidle.opened ha hne hpending hrest

/-- The moon client has read the two bytes of the other client. -/
theorem nothing_lost_greeting : ∃ u q,
    (relayServer moonTable).run (relayServer moonTable).init greetingLabels = some u ∧
    (u.2 moonHandle).Idle ∧ Log.Attends u.1.log moonKey q ⟨65534, moonHandle⟩ ∧
    q.sender = plebHandle ∧ q.payload = [104, 105] ∧
    ∃ msgs p got, readAll ⟨false, 32000000⟩ .new [[0x82, 2], [104, 105]] = (msgs, .ok p) ∧
      msgs.filter Message.isData =
        got.map (fun x : Hash × List Packet => { opcode := .binary, payload := payloads x.2 }) ∧
      q ∈ (sentBy moonKey got).flatten := by
  obtain ⟨u, hu, hg⟩ := exists_greeting
  obtain ⟨q, ha, hsender, hpayload⟩ := hg.attends
  obtain ⟨msgs, p, got, hread, hmsgs, hall⟩ :=
    nothing_lost moonTable u (.of_run hu) moonHandle ⟨false, 32000000⟩ rfl
      (fun x hx => hg.size x hx ▸ by decide) [[0x82, 2], [104, 105]] (by rw [hg.wire]; rfl)
  refine ⟨u, q, hu, hg.idle, ha, hsender, hpayload, msgs, p, got, hread, hmsgs, ?_⟩
  refine hall hg.idle moonKey q _ ha rfl (by rw [hsender]; decide) ?_ fun t _ => hg.rest t
  rw [hg.pending]
  exact List.not_mem_nil

end Server

end MoonJamRelay
