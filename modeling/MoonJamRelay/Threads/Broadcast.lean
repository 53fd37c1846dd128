import MoonJamRelay.Threads.RoomTable
import MoonJamRelay.Threads.Ticks

/-!
# The relay delivers packets

The log of every reachable state follows the rule of `MoonJamRelay.Threads.Delivery`, so what holds
of such logs holds of every run of the threads.

* `System.Recorded` : the log is valid, and the packet lists are what it says;
  `recorded_of_reachable`.
* `delivery` : exactly once and in order.
* `rooms_isolated` : rooms do not mix, and nothing is sent back.
* `sent_others_iff` : when a connection is sent all packets of the others; `not_sent_others` : in
  `reuseLabels` it is not.
-/

namespace MoonJamRelay

open Log

namespace System

variable {keys : KeyManager} {s s' : System}

/-- The log is valid, and it agrees with the packet lists. -/
structure Recorded (s : System) : Prop where
  opened : ∀ h i, .opened h i ∈ s.log → h ∈ s.opened
  accepted : ∀ room p registered, .accepted room p registered ∈ s.log →
    p.number < s.accumulator.accepted
  pending : ∀ room, s.accumulator.pending room = Log.pending s.log room
  valid : Valid s.log

theorem recorded_init : (System.init keys).Recorded where
  opened _ _ h := nomatch h
  accepted _ _ _ h := nomatch h
  pending _ := rfl
  valid := .nil

/-- Steps that neither log anything nor change a packet list. -/
theorem Recorded.frame (h : s.Recorded) (hlog : s'.log = s.log) (hopened : s'.opened = s.opened)
    (haccepted : s'.accumulator.accepted = s.accumulator.accepted)
    (hpending : ∀ room, s'.accumulator.pending room = s.accumulator.pending room) :
    s'.Recorded where
  opened c i hm := hopened ▸ h.opened c i (hlog ▸ hm)
  accepted room p registered hm := haccepted ▸ h.accepted room p registered (hlog ▸ hm)
  pending room := by rw [hpending, h.pending, hlog]
  valid := hlog ▸ h.valid

theorem Recorded.snoc (h : s.Recorded) {e : LogEntry} (hlog : s'.log = s.log ++ [e])
    (hnew : NewKey LogEntry.key s.log e) (hrule : Rule s.log e) (hsub : s.opened ⊆ s'.opened)
    (hopened : ∀ c i, e = .opened c i → c ∈ s'.opened)
    (hle : s.accumulator.accepted ≤ s'.accumulator.accepted)
    (haccepted : ∀ room p registered, e = .accepted room p registered →
      p.number < s'.accumulator.accepted)
    (hpending : ∀ room, s'.accumulator.pending room = e.wait room (s.accumulator.pending room)) :
    s'.Recorded := by
  refine ⟨fun c i hm => ?_, fun room p registered hm => ?_, fun room => ?_, ?_⟩
  · rw [hlog, List.mem_append, List.mem_singleton] at hm
    exact hm.elim (fun hm => hsub (h.opened c i hm)) fun he => hopened c i he.symm
  · rw [hlog, List.mem_append, List.mem_singleton] at hm
    exact hm.elim (fun hm => Nat.lt_of_lt_of_le (h.accepted room p registered hm) hle) fun he =>
      haccepted room p registered he.symm
  · rw [hpending, hlog, pending_snoc, h.pending]
  · rw [hlog]
    exact History.snoc h.valid ⟨hnew, hrule⟩

theorem newKey_of_none {log : List LogEntry} {e : LogEntry} (he : e.key = none) :
    NewKey LogEntry.key log e := fun k hk => by
  rw [he] at hk
  cases hk

/-- A connection that holds an identifier was opened with it. -/
theorem Handling.opened_of_owns (h : s.Handling) {i : UInt16} {c : ConnectionHdl}
    (hc : s.server.Owns s.connected i c) : .opened c i ∈ s.log := by
  have hopened := h.opened c hc.1
  rwa [hc.getIdentifier] at hopened

/-! ### The relay thread -/

theorem Recorded.claimIdentifier (h : s.Recorded) (hh : s.Handling) {handle : ConnectionHdl}
    (hpc : s.relayPc = .claimIdentifier handle) {i : UInt16} :
    NewKey LogEntry.key s.log (.opened handle i) := by
  intro k hk e he hke
  cases hk
  cases e <;> cases hke
  exact (hh.fresh handle hpc).1 (h.opened _ _ he)

theorem Recorded.appendPacket (h : s.Recorded) (hh : s.Handling) (hreg : s.Registered)
    {r : SizedRequest} (hpc : s.relayPc = .appendPacket r) :
    NewKey LogEntry.key s.log (.accepted r.room (s.newPacket r) (s.accumulator.registered r.room)) ∧
      Rule s.log (.accepted r.room (s.newPacket r) (s.accumulator.registered r.room)) := by
  have hr : s.relayPc.request = some r.toRequest := by rw [hpc]; rfl
  obtain ⟨-, keys, hresolved, hroom⟩ := hh.request r.toRequest hr
  have howns := hh.owns hr
  refine ⟨fun k hk e he hke => ?_, .accepted r.room (s.newPacket r) _ keys hresolved hroom
    (payload_receivedPacket _ _ r.length_le) (hh.opened_of_owns howns)
    (fun c hc => hh.opened_of_owns (hreg.owns _ c hc)) fun c hc hne hid => hne ?_⟩
  · cases hk
    cases e <;> simp only [LogEntry.key, reduceCtorEq, Option.some.injEq,
      LogEntry.Key.packet.injEq] at hke
    exact absurd (h.accepted _ _ _ he) (by rw [hke]; exact Nat.lt_irrefl _)
  · have hc' := hreg.owns _ c hc
    rw [hid] at hc'
    exact hh.identifiers.eq_of_owns hc' howns

theorem RelayStep.recorded (h : s.Recorded) (hh : s.Handling) (hreg : s.Registered)
    (hst : s.RelayStep s') : s'.Recorded := by
  have hsame : ∀ {a : PacketAccumulator}, a = s.accumulator → ∀ room,
      a.pending room = s.accumulator.pending room := fun ha room => by rw [ha]
  cases hst with
  | claimIdentifier handle hpc =>
    refine h.snoc rfl (h.claimIdentifier hh hpc) (.opened _ _) (List.subset_cons_self _ _)
      (fun c i he => ?_) (le_of_eq ?_) (fun _ _ _ he => by cases he) (hsame ?_)
    · cases he
      exact List.mem_cons_self
    · exact congrArg PacketAccumulator.accepted RelayServer.packetAccumulator_claimIdentifier.symm
    · exact RelayServer.packetAccumulator_claimIdentifier
  | erasePackets handle identifier room hpc hr =>
    refine h.snoc rfl (newKey_of_none rfl) ?_ (List.Subset.refl _) (fun _ _ he => by cases he)
      (le_refl _) (fun _ _ _ he => by cases he) fun r => ?_
    · rw [h.pending]
      exact .destroyed room
    · refine (PacketAccumulator.pending_erasePackets r).trans ?_
      simp only [LogEntry.wait, eq_comm]
  | unknownKey handle message identifier hpc =>
    exact h.snoc rfl (newKey_of_none rfl) (.resolved _ _ _) (List.Subset.refl _)
      (fun _ _ he => by cases he) (le_refl _) (fun _ _ _ he => by cases he) fun _ => rfl
  | getRoom handle message identifier r pc hpc hr hne hcase =>
    exact h.snoc rfl (newKey_of_none rfl) (.resolved _ _ _) (List.Subset.refl _)
      (fun _ _ he => by cases he) (le_refl _) (fun _ _ _ he => by cases he) fun _ => rfl
  | appendPacket r hpc hr =>
    obtain ⟨hnew, hrule⟩ := h.appendPacket hh hreg hpc
    have haccepted : (s.accumulator.appendPacket r.room r.packet r.handle r.message).accepted =
        s.accumulator.accepted + 1 := by
      rw [PacketAccumulator.appendPacket, if_pos hr]
    refine h.snoc rfl hnew hrule (List.Subset.refl _) (fun _ _ he => by cases he)
      (haccepted ▸ Nat.le_succ _) (fun _ _ _ he => ?_) fun room => ?_
    · cases he
      exact haccepted ▸ Nat.lt_succ_self _
    · refine (PacketAccumulator.pending_appendPacket hr _ _ _ room).trans ?_
      simp only [LogEntry.wait]
      by_cases hroom : room = r.room
      · rw [if_pos hroom, if_pos hroom.symm, hroom]
        rfl
      · rw [if_neg hroom, if_neg (Ne.symm hroom)]
  | insertPackets r hpc hr =>
    exact h.frame rfl rfl rfl fun room => PacketAccumulator.pending_insertPackets hr room
  | eraseMoon | eraseLastMoon =>
    exact h.frame rfl rfl
      (congrArg PacketAccumulator.accepted RelayServer.packetAccumulator_eraseMoon)
      (hsame RelayServer.packetAccumulator_eraseMoon)
  | releaseIdentifier =>
    exact h.frame rfl rfl
      (congrArg PacketAccumulator.accepted RelayServer.packetAccumulator_releaseIdentifier)
      (hsame RelayServer.packetAccumulator_releaseIdentifier)
  | goto | eraseHandles | removeConnection | tooShort | addMoon | noRoom | insertHandles | endJoin
  | join | startThread | full | registerHandle => exact h.frame rfl rfl rfl fun _ => rfl

/-! ### Room threads and workers -/

/-- When a thread takes packets, the earlier ticks of its room are finished: the other threads of
the room have left their ticks. -/
theorem finished_of_getPackets (htable : s.RoomTable) (hticks : s.Ticks) {t : ℕ}
    (hpc : (s.threads t).pc = .getPackets) {t' n : ℕ} {batch : List Packet}
    (hm : .took t' n (s.threads t).room batch ∈ s.log) : Finished s.log t' n := by
  refine ((hticks.logged t').finished n _ batch hm).resolve_left ?_
  rintro ⟨-, hin⟩
  have hroom := ((hticks.logged t').took_le n _ batch hm).1
  have hlive : (s.threads t').pc ≠ .joined := fun he => by
    rw [he] at hin
    exact hin
  obtain rfl : t' = t := htable.unique hlive (by simp [hpc]) hroom
  rw [hpc] at hin
  exact hin

theorem RoomStep.recorded (h : s.Recorded) (hh : s.Handling) (hreg : s.Registered)
    (htable : s.RoomTable) (hticks : s.Ticks) {t : ℕ} (hst : s.RoomStep t s') : s'.Recorded := by
  cases hst with
  | noPackets hpc hempty =>
    refine h.frame rfl rfl PacketAccumulator.accepted_getPackets fun room => ?_
    refine (PacketAccumulator.pending_getPackets room).trans ?_
    split_ifs with hr
    · rw [hr, ← PacketAccumulator.getPackets_fst, hempty]
    · rfl
  | getPackets batch hpc hbatch hne =>
    refine h.snoc rfl (fun k hk e he hke => ?_) ?_ (List.Subset.refl _) (fun _ _ he => by cases he)
      (le_of_eq PacketAccumulator.accepted_getPackets.symm) (fun _ _ _ he => by cases he)
      fun room => ?_
    · -- the tick is a new one
      cases hk
      cases e <;> simp only [LogEntry.key, reduceCtorEq, Option.some.injEq,
        LogEntry.Key.batch.injEq] at hke
      obtain ⟨rfl, rfl⟩ := hke
      have hle := ((hticks.logged _).took_le _ _ _ he).2
      exact absurd hle (Nat.not_succ_le_self _)
    · rw [← hbatch, PacketAccumulator.getPackets_fst, h.pending]
      exact .took t _ _ fun t' n batch' hm => finished_of_getPackets htable hticks hpc hm
    · refine (PacketAccumulator.pending_getPackets room).trans ?_
      simp only [LogEntry.wait, eq_comm]
  | getConnections connections hpc hconnections =>
    have hin : (s.threads t).pc.InTick := by rw [hpc]; trivial
    refine h.snoc rfl (fun k hk e he hke => ?_) ?_ (List.Subset.refl _) (fun _ _ he => by cases he)
      (le_refl _) (fun _ _ _ he => by cases he) fun _ => rfl
    · cases hk
      cases e <;> simp only [LogEntry.key, reduceCtorEq, Option.some.injEq,
        LogEntry.Key.snapshot.injEq] at hke
      obtain ⟨rfl, rfl⟩ := hke
      exact ((hticks.logged _).listed_le _ _ he).2 rfl hpc
    · have hsub : connections.Sublist (s.accumulator.registered (s.threads t).room) := by
        rw [← hconnections, PacketAccumulator.getConnections]
        split_ifs
        · exact List.Sublist.refl _
        · exact List.nil_sublist _
      exact .listed t _ _ _ connections ((hticks.logged t).took hin)
        ((hreg.nodup _).sublist (hsub.map _)) fun c hc =>
          ⟨hh.opened_of_owns (hreg.owns _ c (hsub.subset hc)), hreg.spoke _ c (hsub.subset hc)⟩
  | _ => exact h.frame rfl rfl rfl fun _ => rfl

/-- A worker that is in the function of a job finds the connection and the batch of the job, as they
are in the log. -/
theorem job_of_call (hjobs : s.Jobs) (hticks : s.Ticks) {k : Fin threadCount} {j : Job}
    {a : Option Assembled} (hpc : (s.workers k).pc = .call a) (hjob : (s.workers k).job = some j) :
    .took j.thread j.tick (s.threads j.thread).room (s.threads j.thread).packets ∈ s.log ∧
      .listed j.thread j.tick (s.threads j.thread).connections ∈ s.log ∧
      ∃ c, s.jobConnection j = some c := by
  have hrunning := hjobs.running k j ((Worker.active_of_call hpc).trans hjob)
  have htick : j.tick = (s.threads j.thread).tick := hrunning.1
  have hin : (s.threads j.thread).pc.InTick := by
    by_contra hout
    exact not_running_of_outside hout hrunning
  have hpc' : (s.threads j.thread).pc ≠ .getConnections := fun he => by
    have hlt := hrunning.2.2
    rw [he] at hlt
    exact Nat.not_lt_zero _ hlt
  exact ⟨htick ▸ (hticks.logged _).took hin, htick ▸ (hticks.logged _).listed hin hpc',
    hjobs.jobConnection ((Worker.active_of_call hpc).trans hjob)⟩

theorem WorkerStep.recorded (h : s.Recorded) (hjobs : s.Jobs) (hticks : s.Ticks)
    {k : Fin threadCount} (hst : s.WorkerStep k s') : s'.Recorded := by
  cases hst with
  | send j c a hpc hjob hc =>
    obtain ⟨hb, hl, -⟩ := job_of_call hjobs hticks hpc hjob
    have hunsent : s.Unsent j := ⟨k, (Worker.pending_of_call hpc).trans hjob⟩
    have htick := (hjobs.running_of_unsent hunsent).1
    obtain ⟨c', hc', ha⟩ := hticks.assembled k a j hpc hjob
    obtain rfl : c = c' := Option.some.inj (hc.symm.trans hc')
    obtain ⟨bytes, hbytes, rfl⟩ := Option.map_eq_some_iff.1 ha
    refine h.snoc rfl (fun k hk e he hke => ?_) ?_ (List.Subset.refl _) (fun _ _ he => by cases he)
      (le_refl _) (fun _ _ _ he => by cases he) fun _ => rfl
    · -- the job has not sent yet
      cases hk
      cases e <;> simp only [LogEntry.key, reduceCtorEq, Option.some.injEq,
        LogEntry.Key.job.injEq] at hke
      subst hke
      exact (((hticks.logged _).sent_le _ ⟨_, _, _, _, _, he⟩ rfl).2 htick).2 hunsent
    · exact .sent j c _ bytes _ _ _ hb hl hc hbytes
  | _ => exact h.frame rfl rfl rfl fun _ => rfl

/-- **The threads produce valid logs.** -/
theorem recorded_of_reachable (h : (relaySystem keys).Reachable s) : s.Recorded := by
  refine System.invariant h recorded_init (fun u o hu => hu.frame rfl rfl rfl fun _ => rfl) ?_
    (fun u u' hr hu hst => hst.recorded hu (handling_of_reachable hr) (registered_of_reachable hr))
    (fun u t u' hr hu _ hst => hst.recorded hu (handling_of_reachable hr)
      (registered_of_reachable hr) (roomTable_of_reachable hr) (ticks_of_reachable hr))
    (fun u k u' hr hu hst => hst.recorded hu (jobs_of_reachable hr) (ticks_of_reachable hr))
  intro u u' _ hu hst
  cases hst <;> exact hu.frame rfl rfl rfl fun _ => rfl

end System

/-! ### A run in which an identifier is used again -/

/-- The entry says that the bytes reached the connection. -/
def LogEntry.delivers (job : Job) (c : ReceivedConnection) (room : Hash) (bytes : List UInt8) :
    LogEntry → Bool
  | .sent j c' r b _ delivered =>
    decide (j = job ∧ c' = c ∧ r = room ∧ b = bytes ∧ delivered = true)
  | _ => false

theorem exists_sent_of_delivers {log : List LogEntry} {j : Job} {c : ReceivedConnection}
    {room : Hash} {bytes : List UInt8} (h : log.any (LogEntry.delivers j c room bytes) = true) :
    ∃ parts, .sent j c room bytes parts true ∈ log := by
  obtain ⟨e, he, hd⟩ := List.any_eq_true.1 h
  cases e <;> simp only [LogEntry.delivers, Bool.false_eq_true] at hd
  obtain ⟨rfl, rfl, rfl, rfl, rfl⟩ := of_decide_eq_true hd
  exact ⟨_, he⟩

/-- The entry says that the packet with this number was accepted when the connection was
registered. -/
def LogEntry.accepts (room : Hash) (c : ReceivedConnection) (number : ℕ) : LogEntry → Bool
  | .accepted r p registered => decide (r = room ∧ p.number = number ∧ c ∈ registered)
  | _ => false

theorem exists_accepted_of_accepts {log : List LogEntry} (hvalid : Valid log) {t n : ℕ}
    {batch : List Packet} {p : Packet} {room : Hash} {c : ReceivedConnection}
    (hb : .took t n room batch ∈ log) (hp : p ∈ batch)
    (h : log.any (LogEntry.accepts room c p.number) = true) :
    ∃ registered, .accepted room p registered ∈ log ∧ c ∈ registered := by
  obtain ⟨e, he, ha⟩ := List.any_eq_true.1 h
  cases e <;> simp only [LogEntry.accepts, Bool.false_eq_true] at ha
  obtain ⟨rfl, hnumber, hc⟩ := of_decide_eq_true ha
  obtain ⟨registered, haccepted⟩ := hvalid.accepted_of_took hb hp
  obtain ⟨-, rfl, rfl⟩ := hvalid.accepted_unique he haccepted hnumber
  exact ⟨_, he, hc⟩

/-- A player sends "hi" to the room of the moon client and closes; the next player is given its
identifier and speaks in the room; then the room ticks, and both jobs send. -/
def reuseLabels : List Label :=
  startLabels ++
    [.onOpen plebHandle, .relay, .relay, .onMessage plebHandle (plebKey.bytes ++ [104, 105])] ++
    List.replicate 16 .relay ++ [.endSession plebHandle, .onClose plebHandle] ++
    List.replicate 10 .relay ++
    [.onOpen ⟨2, 16⟩, .relay, .relay, .onMessage ⟨2, 16⟩ plebKey.bytes] ++
    List.replicate 16 .relay ++ List.replicate 6 (.room 0) ++ List.replicate 3 (.worker 0) ++
    List.replicate 5 (.room 0) ++ List.replicate 3 (.worker 1) ++ List.replicate 4 (.room 0) ++
    List.replicate 3 (.worker 0) ++ List.replicate 3 (.worker 1)

/-- After `reuseLabels` the moon client has received "hi", and the second player nothing, although
the batch has "hi" of another connection. -/
theorem exists_reuse : ∃ s, (relaySystem moonTable).Reachable s ∧
    (∃ parts, .sent ⟨0, 1, 0⟩ ⟨65534, moonHandle⟩ moonKey [104, 105] parts true ∈ s.log) ∧
    (∃ parts, .sent ⟨0, 1, 1⟩ ⟨65533, ⟨2, 16⟩⟩ moonKey [] parts true ∈ s.log) ∧
    .took 0 1 moonKey (s.threads 0).packets ∈ s.log ∧
    payloads (others ⟨2, 16⟩ (s.threads 0).packets) = [104, 105] ∧
    payloads (receivedBy s.log moonHandle moonKey) = [104, 105] ∧
    ∃ p ∈ (s.threads 0).packets, p.sender = plebHandle ∧
      ∃ registered, .accepted moonKey p registered ∈ s.log ∧
        ⟨65534, moonHandle⟩ ∈ registered := by
  have hrun : ((relaySystem moonTable).run (.init moonTable) reuseLabels).any
      (fun s => decide (s.log.any (LogEntry.delivers ⟨0, 1, 0⟩ ⟨65534, moonHandle⟩ moonKey
          [104, 105]) = true ∧
        s.log.any (LogEntry.delivers ⟨0, 1, 1⟩ ⟨65533, ⟨2, 16⟩⟩ moonKey []) = true ∧
        (s.threads 0).pc = .joinAcquire 0 ∧ (s.threads 0).tick = 1 ∧
        (s.threads 0).room = moonKey ∧
        payloads (others ⟨2, 16⟩ (s.threads 0).packets) = [104, 105] ∧
        payloads (receivedBy s.log moonHandle moonKey) = [104, 105] ∧
        ∃ p ∈ (s.threads 0).packets, p.sender = plebHandle ∧
          s.log.any (LogEntry.accepts moonKey ⟨65534, moonHandle⟩ p.number) = true)) = true := by
    decide +kernel
  obtain ⟨s, hs, hp⟩ := (Option.any_eq_true _ _).1 hrun
  obtain ⟨hmoon, hpleb, hpc, htick, hroom, hothers, hreceived, p, hmem, hsender, haccepts⟩ :=
    of_decide_eq_true hp
  have hreach : (relaySystem moonTable).Reachable s := .of_run hs
  have htook := ((System.ticks_of_reachable hreach).logged 0).took (by rw [hpc]; trivial)
  rw [htick, hroom] at htook
  exact ⟨s, hreach, exists_sent_of_delivers hmoon, exists_sent_of_delivers hpleb, htook, hothers,
    hreceived, p, hmem, hsender, exists_accepted_of_accepts
      (System.recorded_of_reachable hreach).valid htook hmem haccepts⟩

/-! ### The service of the relay -/

variable {keys : KeyManager} {s : System}

/-- **Rooms do not mix, and nothing is sent back**, in every reachable state: whatever was sent to a
connection came from packets of other connections that had been accepted into the room of the tick
for a key of that room, and the connection itself had had a packet accepted into the room. -/
theorem rooms_isolated (h : (relaySystem keys).Reachable s) {pre post : List LogEntry} {j : Job}
    {c : ReceivedConnection} {room : Hash} {bytes : List UInt8} {parts : List Packet}
    {delivered : Bool} (hlog : s.log = pre ++ .sent j c room bytes parts delivered :: post) :
    bytes = payloads parts ∧ (∀ p ∈ parts, p.sender ≠ c.handle ∧ AcceptedForKey pre room p) ∧
      ∃ p, p.sender = c.handle ∧ AcceptedForKey pre room p := by
  have hvalid := (System.recorded_of_reachable h).valid
  rw [hlog] at hvalid
  exact hvalid.isolation

/-- The moon client of `reuseLabels`. -/
theorem rooms_isolated_of_reuse : ∃ s pre parts, (relaySystem moonTable).Reachable s ∧
    payloads parts = [104, 105] ∧
    ∀ p ∈ parts, p.sender ≠ moonHandle ∧ AcceptedForKey pre moonKey p := by
  obtain ⟨s, hreach, ⟨parts, hsent⟩, -⟩ := exists_reuse
  obtain ⟨pre, post, hlog⟩ := List.append_of_mem hsent
  obtain ⟨hbytes, hparts, -⟩ := rooms_isolated hreach hlog
  exact ⟨s, pre, parts, hreach, hbytes.symm, hparts⟩

/-- **When a connection is sent all packets of the others**, in every reachable state: the bytes
that were sent are the payloads of the packets of the batch that other connections sent, in order,
exactly if no packet of another connection with a payload carried the identifier of the connection.
A job that is about to run computes these bytes exactly if that holds and their number fits an
`int`. -/
theorem sent_others_iff (h : (relaySystem keys).Reachable s) :
    (∀ j c room bytes parts delivered, .sent j c room bytes parts delivered ∈ s.log →
      ∃ batch, .took j.thread j.tick room batch ∈ s.log ∧
        (bytes = payloads (others c.handle batch) ↔ NoneWithheld c batch)) ∧
    ∀ k j, (s.workers k).pc = .call none → (s.workers k).job = some j →
      ∃ c room batch connections, .took j.thread j.tick room batch ∈ s.log ∧
        .listed j.thread j.tick connections ∈ s.log ∧ connections[j.index]? = some c ∧
        s.jobConnection j = some c ∧
        ((s.jobAssemble j c).map Assembled.bytes = some (payloads (others c.handle batch)) ↔
          NoneWithheld c batch ∧ (payloads (others c.handle batch)).length ≤ intMax) := by
  have hvalid := (System.recorded_of_reachable h).valid
  refine ⟨fun j c room bytes parts delivered hs => ?_, fun k j hpc hjob => ?_⟩
  · obtain ⟨batch, connections, hb, hl, hc, hbytes, hparts⟩ := hvalid.sent_spec hs
    refine ⟨batch, hb, ?_⟩
    rw [hbytes, hparts]
    exact hvalid.payloads_foreign_eq_iff hb ((hvalid.listed_spec hl).2 c (List.mem_of_getElem? hc))
  · obtain ⟨hb, hl, c, hc⟩ :=
      System.job_of_call (System.jobs_of_reachable h) (System.ticks_of_reachable h) hpc hjob
    refine ⟨c, _, _, _, hb, hl, hc, hc, ?_⟩
    have hiff := hvalid.payloads_foreign_eq_iff hb
      ((hvalid.listed_spec hl).2 c (List.mem_of_getElem? hc))
    have hassemble : (s.jobAssemble j c).map Assembled.bytes =
        assemble c.identifier (s.threads j.thread).packets := by
      rw [System.jobAssemble, Option.map_map]
      exact Option.map_id'
    rw [hassemble, assemble_eq, ← hiff]
    split_ifs with hfits
    · rw [Option.some.injEq]
      exact ⟨fun he => ⟨he, he ▸ hfits⟩, And.left⟩
    · exact ⟨fun he => (by cases he), fun he => absurd (he.1 ▸ he.2) hfits⟩

/-- In `reuseLabels` a packet is withheld from the second player. -/
theorem sent_others_iff_of_reuse : ∃ s c batch, (relaySystem moonTable).Reachable s ∧
    .took 0 1 moonKey batch ∈ s.log ∧ ¬ NoneWithheld c batch := by
  obtain ⟨s, hreach, -, ⟨parts, hsent⟩, htook, hothers, -⟩ := exists_reuse
  obtain ⟨batch, hb, hiff⟩ := (sent_others_iff hreach).1 _ _ _ _ _ _ hsent
  obtain ⟨-, rfl⟩ := (System.recorded_of_reachable hreach).valid.took_unique htook hb
  refine ⟨s, ⟨65533, ⟨2, 16⟩⟩, _, hreach, hb, fun hnone => ?_⟩
  have hbytes := hiff.2 hnone
  rw [hothers] at hbytes
  cases hbytes

/-- **A packet is withheld from a connection that did not send it**: the second player of
`reuseLabels` has the identifier of the first one, and is not sent the "hi" of the first one. -/
theorem not_sent_others : ¬ ∀ keys s, (relaySystem keys).Reachable s →
    ∀ j c room bytes parts delivered, .sent j c room bytes parts delivered ∈ s.log →
      ∃ batch, .took j.thread j.tick room batch ∈ s.log ∧
        bytes = payloads (others c.handle batch) := by
  intro h
  obtain ⟨s, hreach, -, ⟨parts, hsent⟩, htook, hothers, -⟩ := exists_reuse
  obtain ⟨batch, hb, hbytes⟩ := h moonTable s hreach _ _ _ _ _ _ hsent
  obtain ⟨-, rfl⟩ := (System.recorded_of_reachable hreach).valid.took_unique htook hb
  rw [hothers] at hbytes
  cases hbytes

end MoonJamRelay
