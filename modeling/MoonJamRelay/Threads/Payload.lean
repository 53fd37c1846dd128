import MoonJamRelay.Packet.Copies
import MoonJamRelay.Threads.Broadcast
import MoonJamRelay.Threads.Refinement

/-!
# The payload of a tick

* `System.Measured` : a message that was accepted is not shorter than a key and not longer than a
  key and the largest packet.
* `tick_payload` : the bytes of a job, from the messages that were accepted since the last tick to
  the buffer that is sent.
-/

namespace MoonJamRelay

open Log

namespace System

variable {keys : KeyManager} {s s' : System}

/-- The accepted messages have a key, and a payload that fits a packet. -/
def Measured (s : System) : Prop :=
  ∀ room p registered, .accepted room p registered ∈ s.log →
    hashLength ≤ p.message.length ∧ p.message.length ≤ hashLength + maxPacketSize

theorem Measured.snoc (h : s.Measured) {e : LogEntry} (hlog : s'.log = s.log ++ [e])
    (he : ∀ room p registered, e = .accepted room p registered →
      hashLength ≤ p.message.length ∧ p.message.length ≤ hashLength + maxPacketSize) :
    s'.Measured := by
  intro room p registered hm
  rw [hlog, List.mem_append, List.mem_singleton] at hm
  exact hm.elim (h room p registered) fun hm => he room p registered hm.symm

theorem Measured.congr (h : s.Measured) (hlog : s'.log = s.log) : s'.Measured := by
  intro room p registered hm
  exact h room p registered (hlog ▸ hm)

theorem RelayStep.measured (h : s.Measured) (hreach : (relaySystem keys).Reachable s)
    (hst : s.RelayStep s') : s'.Measured := by
  cases hst with
  | appendPacket r hpc hr =>
    -- `onMessage` has compared the length with both bounds before
    obtain ⟨w, -, hR⟩ := refines_of_reachable hreach
    have hfits := hR.fits
    rw [hpc] at hfits
    refine h.snoc rfl fun room p registered he => ?_
    cases he
    exact ⟨hfits.1.1.1, r.length_le⟩
  | claimIdentifier | erasePackets | unknownKey | getRoom =>
    exact h.snoc rfl fun _ _ _ he => by cases he
  | _ => exact h.congr rfl

theorem RoomStep.measured (h : s.Measured) {t : ℕ} (hst : s.RoomStep t s') : s'.Measured := by
  cases hst with
  | getPackets | getConnections => exact h.snoc rfl fun _ _ _ he => by cases he
  | _ => exact h.congr rfl

theorem WorkerStep.measured (h : s.Measured) {k : Fin threadCount} (hst : s.WorkerStep k s') :
    s'.Measured := by
  cases hst with
  | send => exact h.snoc rfl fun _ _ _ he => by cases he
  | _ => exact h.congr rfl

theorem measured_of_reachable (h : (relaySystem keys).Reachable s) : s.Measured := by
  refine System.invariant h (fun _ _ _ hm => nomatch hm) (fun u o hu => hu.congr rfl) ?_
    (fun u u' hr hu hst => hst.measured hu hr) (fun u t u' _ hu _ hst => hst.measured hu)
    fun u k u' _ hu hst => hst.measured hu
  intro u u' _ hu hst
  cases hst <;> exact hu.congr rfl

end System

variable {keys : KeyManager} {s : System}

/-- What the conversion to `uint16_t` keeps of a packet that a tick took. -/
theorem message_of_took (h : (relaySystem keys).Reachable s) {t n : ℕ} {room : Hash}
    {batch : List Packet} (hb : .took t n room batch ∈ s.log) {p : Packet} (hp : p ∈ batch) :
    p.message.length = hashLength + p.length.toNat ∧
      p.payload = p.message.drop hashLength := by
  have hvalid := (System.recorded_of_reachable h).valid
  obtain ⟨registered, ha⟩ := hvalid.accepted_of_took hb hp
  obtain ⟨hkey, -⟩ := System.measured_of_reachable h room p registered ha
  obtain ⟨-, -, -, -, -, -, -, hpayload⟩ := hvalid.acceptedForKey ha
  refine ⟨?_, hpayload⟩
  have hlen := congrArg List.length hpayload
  rw [p.length_payload, List.length_drop] at hlen
  omega

/-- **The payload of a tick**, in every reachable state.  A tick takes the packets accepted into its
room since the last one, in this order; the conversion to `uint16_t` has kept their lengths, which
are at most `maxPacketSize`.  For every identifier whose foreign packets have at most `INT_MAX`
bytes, the first loop of a job computes the index its second loop ends at; the second loop makes the
calls of `memcpy` in `copies`, which stay inside the buffer and inside their packets, and write
every byte of the buffer exactly once.  The buffer is the concatenation of the foreign messages
without their keys, and this is what is sent. -/
theorem tick_payload (h : (relaySystem keys).Reachable s) {t n : ℕ} {room : Hash}
    {batch : List Packet} (hb : .took t n room batch ∈ s.log) (identifier : UInt16)
    (hsum : ((foreign identifier batch).map fun p => p.length.toNat).sum ≤ intMax) :
    (∃ pre post, s.log = pre ++ .took t n room batch :: post ∧ batch = Log.pending pre room) ∧
    (∀ p ∈ batch, p.length.toNat ≤ maxPacketSize ∧
      p.message.length = hashLength + p.length.toNat) ∧
    countBytes identifier 0 batch = some (copies identifier 0 batch).2 ∧
    (∀ bytes, copyBytes identifier bytes 0 batch =
      (copies identifier 0 batch).1.foldlM (fun bytes c => c.perform bytes) bytes) ∧
    (∀ c ∈ (copies identifier 0 batch).1,
      c.stop ≤ (copies identifier 0 batch).2 ∧ c.size ≤ c.packet.bytes.length) ∧
    (∀ i < (copies identifier 0 batch).2,
      (copies identifier 0 batch).1.countP (fun c => c.covers i) = 1) ∧
    assemble identifier batch =
      some ((foreign identifier batch).flatMap fun p => p.message.drop hashLength) ∧
    ∀ j c bytes parts delivered, .sent j c room bytes parts delivered ∈ s.log → j.thread = t →
      j.tick = n → c.identifier = identifier →
      bytes = (foreign identifier batch).flatMap fun p => p.message.drop hashLength := by
  have hvalid := (System.recorded_of_reachable h).valid
  have hpayloads : payloads (foreign identifier batch) =
      (foreign identifier batch).flatMap fun p => p.message.drop hashLength :=
    List.flatMap_congr fun p hp => (message_of_took h hb (List.mem_of_mem_filter hp)).2
  refine ⟨?_, fun p hp => ⟨p.length_le, (message_of_took h hb hp).1⟩, countBytes_eq_copies hsum,
    fun bytes => copyBytes_eq_foldlM bytes, fun c hc => (inside_of_mem_copies hc).2,
    fun i hi => ?_, ?_, ?_⟩
  · obtain ⟨pre, post, hlog⟩ := List.append_of_mem hb
    refine ⟨pre, post, hlog, ?_⟩
    have hrule := (Valid.cut (hlog ▸ hvalid)).2
    cases hrule
    rfl
  · rw [countP_covers, if_pos ⟨Nat.zero_le i, hi⟩]
  · rw [assemble_eq, length_payloads, if_pos hsum, hpayloads]
  · rintro j c bytes parts delivered hs rfl rfl rfl
    obtain ⟨batch', connections, hb', -, -, rfl, rfl⟩ := hvalid.sent_spec hs
    obtain ⟨-, rfl⟩ := hvalid.took_unique hb hb'
    exact hpayloads

/-- The job of the moon client in `reuseLabels` copies two bytes. -/
theorem tick_payload_of_reuse : ∃ s batch, (relaySystem moonTable).Reachable s ∧
    .took 0 1 moonKey batch ∈ s.log ∧ countBytes 65534 0 batch = some (copies 65534 0 batch).2 ∧
    (copies 65534 0 batch).2 = 2 := by
  obtain ⟨s, hreach, ⟨parts, hsent⟩, -, htook, -⟩ := exists_reuse
  have hvalid := (System.recorded_of_reachable hreach).valid
  obtain ⟨batch, connections, hb, -, -, hbytes, rfl⟩ := hvalid.sent_spec hsent
  obtain ⟨-, rfl⟩ := hvalid.took_unique htook hb
  have hlen : (payloads (foreign 65534 (s.threads 0).packets)).length = 2 := by
    rw [← hbytes]
    rfl
  have hsum : ((foreign 65534 (s.threads 0).packets).map fun p => p.length.toNat).sum ≤ intMax := by
    rw [← length_payloads, hlen]
    decide
  refine ⟨s, (s.threads 0).packets, hreach, htook, (tick_payload hreach htook _ hsum).2.2.1, ?_⟩
  rw [copies_snd, hlen]

end MoonJamRelay
