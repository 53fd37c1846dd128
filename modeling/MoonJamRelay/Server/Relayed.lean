import MoonJamRelay.Server.Linked
import MoonJamRelay.Threads.Attendance
import MoonJamRelay.Threads.Lives

/-!
# What a client gets from the relay

From the packets of a room to the bytes that a client reads: the log of the relay, the calls of its
workers, the queue of the connection, the frames and the reads.

* `Log.sentTo` : the packets that the relay has sent to a connection, one list for each `send`.
* `Server.Relaying` : the invariant. One worker at a time sends the packets of a room to a
  connection, so that what the queue accepts from a room is in the order of the room.
* `relayed` : what a client reads.
-/

namespace MoonJamRelay

open Websocket (Connection Config Message readAll)

/-! ### The calls in the log -/

/-- The packets of a call of `send` for the connection, with their room, if its websocket was
open. -/
def LogEntry.sentTo (handle : ConnectionHdl) : LogEntry → List (Hash × List Packet)
  | .sent _ c room _ parts delivered =>
    if c.handle = handle ∧ delivered = true then [(room, parts)] else []
  | _ => []

namespace Log

variable {log : List LogEntry} {handle : ConnectionHdl} {room : Hash} {parts : List Packet}

/-- The calls of `send` for the connection. -/
def sentTo (log : List LogEntry) (handle : ConnectionHdl) : List (Hash × List Packet) :=
  log.flatMap (LogEntry.sentTo handle)

theorem sentTo_snoc {e : LogEntry} :
    sentTo (log ++ [e]) handle = sentTo log handle ++ e.sentTo handle := by
  simp [sentTo]

theorem mem_sentTo : (room, parts) ∈ sentTo log handle ↔
    ∃ j c bytes, c.handle = handle ∧ .sent j c room bytes parts true ∈ log := by
  simp only [sentTo, List.mem_flatMap]
  constructor
  · rintro ⟨e, he, hx⟩
    cases e <;> simp only [LogEntry.sentTo, List.not_mem_nil] at hx
    split_ifs at hx with hcond
    · obtain ⟨rfl, rfl⟩ := Prod.mk.inj (List.mem_singleton.1 hx)
      obtain ⟨hhandle, rfl⟩ := hcond
      exact ⟨_, _, _, hhandle, he⟩
    · cases hx
  · rintro ⟨j, c, bytes, hhandle, he⟩
    exact ⟨_, he, by simp [LogEntry.sentTo, hhandle]⟩

/-- The packets of a room that a connection was sent. -/
theorem flatten_sentTo (log : List LogEntry) (handle : ConnectionHdl) (room : Hash) :
    (MoonJamRelay.sentBy room (sentTo log handle)).flatten = receivedBy log handle room := by
  induction log using List.reverseRecOn with
  | nil => rfl
  | append_singleton log e ih =>
    rw [sentTo_snoc, sentBy_append, List.flatten_append, ih, receivedBy, receivedBy,
      List.flatMap_append, List.flatMap_singleton]
    congr 1
    cases e with
    | sent j c r bytes parts delivered =>
      rw [LogEntry.sentTo, LogEntry.receivedBy]
      by_cases hcond : c.handle = handle ∧ delivered = true
      · rw [if_pos hcond]
        by_cases hroom : r = room
        · rw [if_pos ⟨hroom, hcond⟩, hroom, sentBy_self, List.flatten_singleton]
        · rw [if_neg fun h => hroom h.1, sentBy_other (Ne.symm hroom), List.flatten_nil]
      · rw [if_neg hcond, if_neg fun h => hcond h.2, sentBy_nil, List.flatten_nil]
    | _ => rfl

/-- Some of the calls for a room hold packets of the room in the order in which they were
accepted. -/
theorem Valid.flatten_sublist (hvalid : Valid log) {calls : List (List Packet)}
    (hsub : calls.Sublist (MoonJamRelay.sentBy room (sentTo log handle))) :
    calls.flatten.Sublist (acceptedIn log room) := by
  refine hsub.flatten.trans ?_
  rw [flatten_sentTo]
  exact hvalid.received_sublist handle

end Log

namespace System

variable {s s' : System} {t : ℕ}

theorem RoomStep.sentTo (hst : s.RoomStep t s') (handle : ConnectionHdl) :
    Log.sentTo s'.log handle = Log.sentTo s.log handle := by
  cases hst with
  | getPackets | getConnections => exact Log.sentTo_snoc.trans (List.append_nil _)
  | _ => rfl

end System

namespace Server

variable {keys : KeyManager} {s s' : System} {cs cs' : Connections} {handle : ConnectionHdl}
  {c c' : Connection} {e : Websocket.Event} {room : Hash} {parts : List Packet} {k : ℕ}
  {tagged : List (Hash × List Packet)} {slots : Hash → Option (ℕ × List Packet)}

/-! ### The invariant -/

/-- What is being sent from each room. -/
def waiting (slots : Hash → Option (ℕ × List Packet)) (room : Hash) : List (List Packet) :=
  ((slots room).map Prod.snd).toList

/-- The worker has called `send` for the connection, with packets of the room. -/
def Posted (s : System) (handle : ConnectionHdl) (room : Hash) (k : ℕ) : Prop :=
  ∃ (w : Fin threadCount) (j : Job) (rc : ReceivedConnection) (bytes : List UInt8)
    (parts : List Packet), w.val = k ∧ (s.workers w).pc = .done ∧ (s.workers w).job = some j ∧
      rc.handle = handle ∧ .sent j rc room bytes parts true ∈ s.log

/-- What the connection has accepted comes from the calls in the log, and `slots` says which worker
is still in a call for which room. -/
structure Relaying (s : System) (c : Connection) (handle : ConnectionHdl)
    (tagged : List (Hash × List Packet)) (slots : Hash → Option (ℕ × List Packet)) : Prop where
  accepted : tagged.map (fun x => payloads x.2) = Websocket.binaries c.writer.accepted
  merged : Merged (c.state = .opened) (waiting slots) (Log.sentTo s.log handle) tagged
  /-- The relay sends nothing in its message handler. -/
  idle : c.unsent none = []
  slot : ∀ room k parts, slots room = some (k, parts) →
    c.unsent (some k) = [payloads parts] ∧ Posted s handle room k
  unsent : ∀ k, c.unsent (some k) ≠ [] → ∃ room parts, slots room = some (k, parts)

theorem Relaying.init : Relaying (.init keys) .new handle [] fun _ => none where
  accepted := rfl
  merged := Merged.nil
  idle := rfl
  slot _ _ _ h := nomatch h
  unsent _ h := absurd rfl h

/-- A worker sends the packets of one room. -/
theorem Posted.unique {room' : Hash} (hvalid : Log.Valid s.log) (h : Posted s handle room k)
    (h' : Posted s handle room' k) : room = room' := by
  obtain ⟨w, j, rc, bytes, parts, hw, -, hjob, -, hsent⟩ := h
  obtain ⟨w', j', rc', bytes', parts', hw', -, hjob', -, hsent'⟩ := h'
  obtain rfl : w = w' := Fin.ext (hw.trans hw'.symm)
  obtain rfl := Option.some.inj (hjob.symm.trans hjob')
  obtain ⟨_, _, hb, -⟩ := hvalid.sent_spec hsent
  obtain ⟨_, _, hb', -⟩ := hvalid.sent_spec hsent'
  exact (hvalid.took_unique hb hb').1

theorem Posted.mono (h : Posted s handle room k) (hlog : s.log ⊆ s'.log)
    (hworkers : ∀ w : Fin threadCount, w.val = k → (s.workers w).pc = .done →
      s'.workers w = s.workers w) : Posted s' handle room k := by
  obtain ⟨w, j, rc, bytes, parts, hw, hpc, hjob, hrc, hsent⟩ := h
  have hsame := hworkers w hw hpc
  exact ⟨w, j, rc, bytes, parts, hw, by rw [hsame, hpc], by rw [hsame, hjob], hrc, hlog hsent⟩

namespace Relaying

theorem frame (h : Relaying s c handle tagged slots) (hlog : s.log ⊆ s'.log)
    (hsent : Log.sentTo s'.log handle = Log.sentTo s.log handle)
    (hworkers : ∀ w : Fin threadCount, c.unsent (some w.val) ≠ [] → (s.workers w).pc = .done →
      s'.workers w = s.workers w) : Relaying s' c handle tagged slots where
  accepted := h.accepted
  merged := hsent ▸ h.merged
  idle := h.idle
  slot room k parts hslot := by
    obtain ⟨hunsent, hposted⟩ := h.slot room k parts hslot
    refine ⟨hunsent, hposted.mono hlog fun w hw hpc => hworkers w ?_ hpc⟩
    rw [hw, hunsent]
    exact List.cons_ne_nil _ _
  unsent := h.unsent

theorem event (h : Relaying s c handle tagged slots) (hvalid : Log.Valid s.log)
    (hc : Websocket.connection.Reachable c) (hsent : e.sent = none) (hnext : c.next e = some c') :
    ∃ tagged slots, Relaying s c' handle tagged slots := by
  have hopened : c'.state = .opened → c.state = .opened := (Websocket.next_step hnext).state.2
  cases Websocket.traffic_of_next hc hnext with
  | quiet _ haccepted hunsent hsame =>
    -- the calls that were given up leave their slots
    refine ⟨tagged, fun room => (slots room).filter fun x => c'.unsent (some x.1) ≠ [],
      h.accepted.trans haccepted.symm, h.merged.giveUp (fun room => ?_) fun hs => ?_, ?_, ?_, ?_⟩
    · rw [waiting, waiting]
      cases slots room with
      | none => exact List.Sublist.refl _
      | some x =>
        rw [Option.filter_some]
        split_ifs
        · exact List.Sublist.refl _
        · exact List.nil_sublist _
    · refine ⟨hopened hs, fun room => ?_⟩
      rw [waiting, waiting]
      cases hslot : slots room with
      | none => rfl
      | some x =>
        rw [Option.filter_some, if_pos]
        rw [hsame hs, (h.slot room x.1 x.2 hslot).1]
        simp
    · exact List.sublist_nil.1 (h.idle ▸ hunsent none)
    · intro room k parts hslot
      obtain ⟨hslot, hne⟩ := Option.filter_eq_some_iff.1 hslot
      obtain ⟨hold, hposted⟩ := h.slot room k parts hslot
      refine ⟨?_, hposted⟩
      have hsub := hunsent (some k)
      rw [hold] at hsub
      exact (List.sublist_singleton.1 hsub).resolve_left (by simpa using hne)
    · intro k hne
      have hold : c.unsent (some k) ≠ [] := fun hnil =>
        hne (List.sublist_nil.1 (hnil ▸ hunsent (some k)))
      obtain ⟨room, parts, hslot⟩ := h.unsent k hold
      exact ⟨room, parts, Option.filter_eq_some_iff.2 ⟨hslot, by simpa using hne⟩⟩
  | accept g data _ haccepted hself hother =>
    cases g with
    | none =>
      rw [h.idle] at hself
      cases hself.1
    | some k =>
      obtain ⟨room, parts, hslot⟩ := h.unsent k (by rw [hself.1]; exact List.cons_ne_nil _ _)
      obtain ⟨hold, hposted⟩ := h.slot room k parts hslot
      obtain rfl : data = payloads parts := List.singleton_inj.1 (hself.1.symm.trans hold)
      -- the worker has no other slot
      have honly : ∀ r k' parts', slots r = some (k', parts') → r ≠ room → k' ≠ k := by
        rintro r k' parts' hr hne rfl
        exact hne (((h.slot r _ _ hr).2).unique hvalid hposted)
      refine ⟨tagged ++ [(room, parts)], Function.update slots room none, ?_,
        h.merged.accept ⟨?_, ?_⟩ (fun r hne => ?_) hopened, ?_, fun r k' parts' hr => ?_,
        fun k' hne => ?_⟩
      · rw [List.map_append, h.accepted, haccepted]
        rfl
      · rw [waiting, hslot]
        rfl
      · rw [waiting, Function.update_self]
        rfl
      · rw [waiting, waiting, Function.update_of_ne hne]
      · rw [hother none (by simp), h.idle]
      · have hne : r ≠ room := by
          rintro rfl
          rw [Function.update_self] at hr
          cases hr
        rw [Function.update_of_ne hne] at hr
        obtain ⟨hunsent, hposted'⟩ := h.slot r k' parts' hr
        refine ⟨?_, hposted'⟩
        rw [hother (some k') (by simpa using honly r k' parts' hr hne), hunsent]
      · have hk : k' ≠ k := by
          rintro rfl
          exact hne hself.2
        rw [hother (some k') (by simpa using hk)] at hne
        obtain ⟨r, parts', hr⟩ := h.unsent k' hne
        refine ⟨r, parts', ?_⟩
        rw [Function.update_of_ne, hr]
        rintro rfl
        rw [hslot] at hr
        exact hk (Prod.mk.inj (Option.some.inj hr)).1.symm
  | begin g data hsome => cases hsent.symm.trans hsome

theorem send (h : Relaying s c handle tagged slots) {w : Fin threadCount} {j : Job}
    {rc : ReceivedConnection} {bytes : List UInt8} (hrc : rc.handle = handle)
    (hbytes : bytes = payloads parts) (hfree : slots room = none)
    (hk : c.senders w.val = none) (hlog : s'.log = s.log ++ [.sent j rc room bytes parts true])
    (hpc : (s'.workers w).pc = .done) (hjob : (s'.workers w).job = some j)
    (hworkers : ∀ w', w' ≠ w → s'.workers w' = s.workers w') :
    Relaying s' { c with senders := Function.update c.senders w.val (some (.send bytes)) } handle
      tagged (Function.update slots room (some (w.val, parts))) := by
  obtain ⟨hself, hother⟩ := Websocket.unsent_update (c := c)
    (u := { c with senders := Function.update c.senders w.val (some (.send bytes)) }) rfl rfl
  have hnil : c.unsent (some w.val) = [] := by
    rw [Connection.unsent, hk]
    rfl
  have hsub : s.log ⊆ s'.log := hlog ▸ List.subset_append_left _ _
  have hold : ∀ r k' parts', slots r = some (k', parts') → k' ≠ w.val := by
    rintro r k' parts' hr rfl
    rw [(h.slot r _ _ hr).1] at hnil
    cases hnil
  refine ⟨h.accepted, ?_, ?_, fun r k' parts' hr => ?_, fun k' hne => ?_⟩
  · have hsent : Log.sentTo s'.log handle = Log.sentTo s.log handle ++ [(room, parts)] := by
      rw [hlog, Log.sentTo_snoc, LogEntry.sentTo, if_pos ⟨hrc, rfl⟩]
    rw [hsent]
    refine h.merged.begin ?_ (fun r hne => ?_) id
    · rw [waiting, waiting, Function.update_self, hfree]
      rfl
    · rw [waiting, waiting, Function.update_of_ne hne]
  · rw [hother none (by simp), h.idle]
  · by_cases hroom : r = room
    · rw [hroom, Function.update_self] at hr
      obtain ⟨rfl, rfl⟩ := Prod.mk.inj (Option.some.inj hr)
      refine ⟨hself.trans (by rw [hbytes]; rfl), ?_⟩
      refine ⟨w, j, rc, bytes, parts, rfl, hpc, hjob, hrc, ?_⟩
      rw [hroom, hlog]
      exact List.mem_append_right _ (List.mem_singleton_self _)
    · rw [Function.update_of_ne hroom] at hr
      obtain ⟨hunsent, hposted⟩ := h.slot r k' parts' hr
      have hne := hold r k' parts' hr
      refine ⟨(hother (some k') (by simpa using hne)).trans hunsent, hposted.mono hsub ?_⟩
      rintro w' rfl -
      exact hworkers w' fun he => hne (congrArg Fin.val he)
  · by_cases hkw : k' = w.val
    · exact ⟨room, parts, by rw [Function.update_self, hkw]⟩
    · rw [hother (some k') (by simpa using hkw)] at hne
      obtain ⟨r, parts', hr⟩ := h.unsent k' hne
      refine ⟨r, parts', ?_⟩
      rw [Function.update_of_ne, hr]
      rintro rfl
      rw [hfree] at hr
      cases hr

end Relaying

/-! ### The steps -/

/-- No other worker sends packets of the room to the connection. -/
theorem not_posted (hr : (relaySystem keys).Reachable s) {w : Fin threadCount} {j : Job}
    {rc : ReceivedConnection} {a : Assembled} (hpc : (s.workers w).pc = .call (some a))
    (hjob : (s.workers w).job = some j) (hc : s.jobConnection j = some rc) :
    ¬ Posted s rc.handle (s.threads j.thread).room k := by
  rintro ⟨w', j', rc', bytes, parts, -, hpc', hjob', hrc, hsent⟩
  have hjobs := System.jobs_of_reachable hr
  have hticks := System.ticks_of_reachable hr
  have hvalid := (System.recorded_of_reachable hr).valid
  have hactive : (s.workers w).active = some j := (Worker.active_of_call hpc).trans hjob
  have hactive' : (s.workers w').active = some j' := (Worker.active_of_done hpc').trans hjob'
  have hrunning := hjobs.running _ _ hactive
  have hrunning' := hjobs.running _ _ hactive'
  have hjoined : ∀ {j : Job}, s.Running j → (s.threads j.thread).pc ≠ .joined := fun hj he =>
    System.not_running_of_outside (by simp [he, RoomPc.InTick]) hj
  -- both jobs belong to the tick of the one thread of the room
  obtain ⟨hb, hl, -⟩ := System.job_of_call hjobs hticks hpc hjob
  obtain ⟨batch, connections, hb', hl', hc', -⟩ := hvalid.sent_spec hsent
  have hroom := ((hticks.logged j'.thread).took_le _ _ _ hb').1
  have ht : j.thread = j'.thread := (System.roomTable_of_reachable hr).unique (hjoined hrunning)
    (hjoined hrunning') hroom.symm
  have hn : j.tick = j'.tick := by rw [hrunning.1, hrunning'.1, ht]
  obtain rfl := hvalid.job_unique hl hc hl' hc' ht hn hrc.symm
  obtain rfl := hjobs.unique _ _ _ hactive hactive'
  rw [hpc] at hpc'
  cases hpc'

/-- What is known of every connection. -/
def AllRelaying (s : System) (cs : Connections) : Prop :=
  ∀ g, ∃ tagged slots, Relaying s (cs g) g tagged slots

theorem AllRelaying.frame (h : AllRelaying s cs) (hlog : s.log ⊆ s'.log)
    (hsent : ∀ g, Log.sentTo s'.log g = Log.sentTo s.log g)
    (hworkers : ∀ (w : Fin threadCount) g, (cs g).unsent (some w.val) ≠ [] →
      (s.workers w).pc = .done → s'.workers w = s.workers w) : AllRelaying s' cs := by
  intro g
  obtain ⟨tagged, slots, h⟩ := h g
  exact ⟨tagged, slots, h.frame hlog (hsent g) fun w => hworkers w g⟩

theorem AllRelaying.event (h : AllRelaying s cs) (hvalid : Log.Valid s.log)
    (hc : Websocket.connection.Reachable (cs handle)) (hsent : e.sent = none)
    (hnext : (cs handle).next e = some c) : AllRelaying s (Function.update cs handle c) := by
  intro g
  by_cases hg : g = handle
  · rw [hg, Function.update_self]
    obtain ⟨tagged, slots, h⟩ := h handle
    exact h.event hvalid hc hsent hnext
  · rw [Function.update_of_ne hg]
    exact h g

theorem AllRelaying.send (h : AllRelaying s cs) (hlinked : Linked s cs)
    (hr : (relaySystem keys).Reachable s) {w : Fin threadCount} {j : Job} {rc : ReceivedConnection}
    {a : Assembled} {c₁ c₂ : Connection} (hpc : (s.workers w).pc = .call (some a))
    (hjob : (s.workers w).job = some j) (hc : s.jobConnection j = some rc)
    (h₁ : (cs rc.handle).next (.call w a.bytes) = some c₁) (h₂ : c₁.next (.sender w) = some c₂) :
    AllRelaying ((s.jobSend j rc a).withWorker w (s.workers w).finish)
      (Function.update cs rc.handle c₂) := by
  have hopened := mem_opened_of_send hr hpc hjob hc
  have hworkers : ∀ w', w' ≠ w →
      ((s.jobSend j rc a).withWorker w (s.workers w).finish).workers w' = s.workers w' :=
    fun w' hne => Function.update_of_ne hne _ _
  have hsub : s.log ⊆ ((s.jobSend j rc a).withWorker w (s.workers w).finish).log :=
    List.subset_append_left _ _
  -- for the other connections, and for a connection that is not open, nothing happens
  have hother : ∀ g, (g = rc.handle → rc.handle ∉ s.sessions) → ∃ tagged slots,
      Relaying ((s.jobSend j rc a).withWorker w (s.workers w).finish) (cs g) g tagged slots := by
    intro g hg
    obtain ⟨tagged, slots, h⟩ := h g
    refine ⟨tagged, slots, h.frame hsub ?_ fun w' _ hdone => hworkers w' ?_⟩
    · refine Log.sentTo_snoc.trans ?_
      rw [LogEntry.sentTo, if_neg, List.append_nil]
      rintro ⟨hrc, hd⟩
      exact hg hrc.symm (of_decide_eq_true hd)
    · rintro rfl
      rw [hpc] at hdone
      cases hdone
  obtain ⟨hk, ⟨hs, rfl⟩ | ⟨hs, rfl⟩⟩ := Websocket.relaySend_run h₁ h₂
  · intro g
    by_cases hg : g = rc.handle
    · rw [hg, Function.update_self]
      obtain ⟨tagged, slots, h⟩ := h rc.handle
      have hbytes : a.bytes = payloads a.parts := by
        obtain ⟨rc', -, ha⟩ := (System.ticks_of_reachable hr).assembled w a j hpc hjob
        obtain ⟨bytes, hbytes, rfl⟩ := Option.map_eq_some_iff.1 ha
        rw [assemble_eq] at hbytes
        split_ifs at hbytes
        exact (Option.some.inj hbytes).symm
      have hfree : slots (s.threads j.thread).room = none := by
        cases hslot : slots (s.threads j.thread).room with
        | none => rfl
        | some x => exact absurd (h.slot _ x.1 x.2 hslot).2 (not_posted hr hpc hjob hc)
      have hlog : ((s.jobSend j rc a).withWorker w (s.workers w).finish).log =
          s.log ++ [.sent j rc (s.threads j.thread).room a.bytes a.parts true] := by
        have hmem : decide (rc.handle ∈ s.sessions) = true :=
          decide_eq_true ((hlinked.sessions _ hopened).2 hs)
        change s.log ++ [LogEntry.sent j rc _ a.bytes a.parts (decide (rc.handle ∈ s.sessions))] = _
        rw [hmem]
      refine ⟨tagged, _, h.send (j := j) rfl hbytes hfree hk hlog ?_ ?_ hworkers⟩
      · exact congrArg Worker.pc (Function.update_self w _ s.workers)
      · exact (congrArg Worker.job (Function.update_self w _ s.workers)).trans hjob
    · rw [Function.update_of_ne hg]
      exact hother g fun he => absurd he hg
  · intro g
    rw [Function.update_eq_self]
    exact hother g fun _ hm => hs ((hlinked.sessions _ hopened).1 hm)

theorem Step.relaying (hst : Step s cs s' cs') (h : AllRelaying s cs) (hlinked : Linked s cs)
    (hr : (relaySystem keys).Reachable s)
    (hc : ∀ g, Websocket.connection.Reachable (cs g)) : AllRelaying s' cs' := by
  have hvalid := (System.recorded_of_reachable hr).valid
  have hsame : ∀ {cs₁ : Connections}, AllRelaying s cs₁ → s'.log = s.log →
      s'.workers = s.workers → AllRelaying s' cs₁ := fun h hlog hworkers =>
    h.frame (by rw [hlog]; exact List.Subset.refl _) (fun g => by rw [hlog])
      fun w _ _ _ => by rw [hworkers]
  -- a section of the relay thread
  have hrelay : ∀ {cs₁ : Connections}, AllRelaying s cs₁ → s.RelayStep s' →
      AllRelaying s' cs₁ := by
    intro cs₁ h hst
    obtain ⟨hworkers, -⟩ := hst.workers
    rcases hst.log with hlog | ⟨e, hlog, he⟩
    · exact hsame h hlog hworkers
    · refine h.frame (hlog ▸ List.subset_append_left _ _) (fun g => ?_)
        fun w _ _ _ => by rw [hworkers]
      rw [hlog, Log.sentTo_snoc]
      cases e with
      | sent => cases he
      | _ => exact List.append_nil _
  cases hst with
  | onOpen | refreshKeys => exact hsame h rfl rfl
  | relay hst => exact hrelay h hst
  | close handle reply c₁ c₂ c₃ hst hclose h₁ h₂ h₃ =>
    refine hrelay ?_ hst
    have hreach₁ : Websocket.connection.Reachable c₁ :=
      (hc handle).step (l := .handlerClose reply.reason) h₁
    have hreach₂ : Websocket.connection.Reachable c₂ := hreach₁.step (l := .io) h₂
    intro g
    by_cases hg : g = handle
    · subst hg
      rw [Function.update_self]
      obtain ⟨tagged, slots, h⟩ := h g
      obtain ⟨tagged, slots, h⟩ := h.event hvalid (hc g) rfl h₁
      obtain ⟨tagged, slots, h⟩ := h.event hvalid hreach₁ rfl h₂
      exact h.event hvalid hreach₂ rfl h₃
    · rw [Function.update_of_ne hg]
      exact h g
  | room t hst =>
    obtain ⟨-, -, -, -, -, hlog, -⟩ := hst.connections
    refine h.frame hlog hst.sentTo fun w _ _ hdone => ?_
    exact hst.busy (System.jobs_of_reachable hr) (by rw [hdone]; simp)
  | worker w hst hfree hnone =>
    have hworkers : ∀ (w' : Fin threadCount) g, (cs g).unsent (some w'.val) ≠ [] → w' ≠ w := by
      rintro w' g hne rfl
      have hsenders : (cs g).senders w'.val ≠ none := by
        intro hnil
        rw [Connection.unsent, hnil] at hne
        exact hne rfl
      refine hfree ⟨g, ?_, hsenders⟩
      by_contra hno
      rw [hlinked.fresh g hno] at hsenders
      exact hsenders rfl
    cases hst with
    | send j rc a hpc hjob hcon => simp [System.sendOf, hpc, hjob, hcon] at hnone
    | _ =>
      exact h.frame (List.Subset.refl _) (fun _ => rfl)
        fun w' g hne _ => Function.update_of_ne (hworkers w' g hne) _ _
  | send w j rc a c₁ c₂ hpc hjob hcon hfree h₁ h₂ => exact h.send hlinked hr hpc hjob hcon h₁ h₂
  | quiet handle e c hopened hnext hsent => exact h.event hvalid (hc handle) hsent hnext
  | endSession handle e c hopened hnext hsent =>
    exact hsame (h.event hvalid (hc handle) hsent hnext) rfl rfl
  | message handle e c m hopened hnext hsent =>
    exact hsame (h.event hvalid (hc handle) hsent hnext) rfl rfl
  | onClose handle e c hopened hnext hsent =>
    exact hsame (h.event hvalid (hc handle) hsent hnext) rfl rfl

theorem relaying_of_reachable {u : System × Connections} (h : (relayServer keys).Reachable u) :
    AllRelaying u.1 u.2 := by
  refine (invariant (I := fun s cs => Linked s cs ∧ AllRelaying s cs) h
    ⟨Linked.init, fun _ => ⟨[], _, .init⟩⟩ (fun s cs o h => ⟨h.1.frame rfl rfl rfl rfl, ?_⟩)
    fun _ _ _ _ hr hc h hst => ⟨hst.linked h.1 hr, hst.relaying h.2 h.1 hr hc⟩).2
  exact h.2.frame (List.Subset.refl _) (fun _ => rfl) fun _ _ _ _ => rfl

/-! ### What a client reads -/

theorem length_sent {log : List LogEntry} (hvalid : Log.Valid log) {j : Job}
    {rc : ReceivedConnection} {bytes : List UInt8} {delivered : Bool}
    (h : .sent j rc room bytes parts delivered ∈ log) : (payloads parts).length ≤ intMax := by
  obtain ⟨pre, -, -, hrule⟩ := hvalid.of_mem h
  cases hrule with
  | sent _ _ _ _ batch connections _ hb hl hc hbytes =>
    rw [assemble_eq] at hbytes
    split_ifs at hbytes with hlen
    exact hlen

/-- What a client reads was sent to it, the packets of each room in the order of the calls. -/
theorem calls_read {u : System × Connections} (h : (relayServer keys).Reachable u)
    {client : Config} (hclient : client.server = false)
    (hsize : ∀ x ∈ Log.sentTo u.1.log handle, (payloads x.2).length ≤ client.maxMessageSize)
    {bufs : List (List UInt8)} (hbufs : bufs.flatten <+: (u.2 handle).writer.wire) :
    ∃ msgs p got, readAll client .new bufs = (msgs, .ok p) ∧
      msgs.filter Message.isData =
        got.map (fun x : Hash × List Packet => { opcode := .binary, payload := payloads x.2 }) ∧
      (∀ room, (sentBy room got).Sublist (sentBy room (Log.sentTo u.1.log handle))) ∧
      ((u.2 handle).Idle → bufs.flatten = (u.2 handle).writer.wire →
        ∀ room, sentBy room got = sentBy room (Log.sentTo u.1.log handle)) := by
  obtain ⟨tagged, slots, hrel⟩ := relaying_of_reachable h handle
  have hvalid := (System.recorded_of_reachable h.coupled.1).valid
  have hsize' : ∀ data ∈ Websocket.binaries (u.2 handle).writer.accepted,
      data.length ≤ client.maxMessageSize ∧ data.length < 2 ^ 64 := by
    rw [← hrel.accepted]
    intro data hdata
    obtain ⟨x, hx, rfl⟩ := List.mem_map.1 hdata
    have hmem : x ∈ Log.sentTo u.1.log handle := hrel.merged.mem hx
    obtain ⟨j, rc, bytes, -, hsent⟩ := Log.mem_sentTo.1 hmem
    exact ⟨hsize x hmem, (length_sent hvalid hsent).trans_lt (by decide)⟩
  obtain ⟨msgs, p, n, hread, hmsgs, hall⟩ :=
    Websocket.binaries_read (h.coupled.2.member handle) hclient hsize' hbufs
  refine ⟨msgs, p, tagged.take n, hread, ?_, fun room => hrel.merged.take room n,
    fun hidle hbytes room => ?_⟩
  · rw [hmsgs, ← hrel.accepted, ← List.map_take, List.map_map]
    rfl
  · have hlength : tagged.length ≤ n := by
      rw [← List.length_map fun x : Hash × List Packet => payloads x.2, hrel.accepted]
      exact hall hidle hbytes
    have hwaiting : waiting slots room = [] := by
      cases hslot : slots room with
      | none => rw [waiting, hslot]; rfl
      | some x =>
        have hunsent := (hrel.slot room x.1 x.2 hslot).1
        rw [hidle.unsent] at hunsent
        cases hunsent
    rw [List.take_of_length_le hlength]
    exact hrel.merged.rest hidle.opened hwaiting

/-- **What a client gets from the relay**: the data messages that a client reads hold packets that
other connections had accepted into rooms for keys of these rooms; those of one room come in the
order in which they were accepted, and each once. When its connection is open and has nothing to do,
and the client has read all bytes, then it has got whatever the relay has sent to it. -/
theorem relayed (keys : KeyManager) (u : System × Connections)
    (h : (relayServer keys).Reachable u) (handle : ConnectionHdl) (client : Config)
    (hclient : client.server = false)
    (hsize : ∀ x ∈ Log.sentTo u.1.log handle, (payloads x.2).length ≤ client.maxMessageSize)
    (bufs : List (List UInt8)) (hbufs : bufs.flatten <+: (u.2 handle).writer.wire) :
    ∃ msgs p got, readAll client .new bufs = (msgs, .ok p) ∧
      msgs.filter Message.isData =
        got.map (fun x : Hash × List Packet => { opcode := .binary, payload := payloads x.2 }) ∧
      (∀ room, (sentBy room got).flatten.Sublist (Log.acceptedIn u.1.log room)) ∧
      (∀ x ∈ got, ∀ q ∈ x.2, q.sender ≠ handle ∧ Log.AcceptedForKey u.1.log x.1 q) ∧
      ((u.2 handle).Idle → bufs.flatten = (u.2 handle).writer.wire →
        ∀ room, (sentBy room got).flatten = Log.receivedBy u.1.log handle room) := by
  obtain ⟨msgs, p, got, hread, hmsgs, hsub, hall⟩ := calls_read h hclient hsize hbufs
  have hvalid := (System.recorded_of_reachable h.coupled.1).valid
  refine ⟨msgs, p, got, hread, hmsgs, fun room => hvalid.flatten_sublist (hsub room),
    fun x hx q hq => ?_, fun hidle hbytes room => ?_⟩
  · have hmem := mem_sentBy.1 ((hsub x.1).subset (mem_sentBy.2 hx))
    obtain ⟨j, rc, bytes, rfl, hsent⟩ := Log.mem_sentTo.1 hmem
    obtain ⟨pre, post, hlog⟩ := List.append_of_mem hsent
    rw [hlog] at hvalid ⊢
    obtain ⟨hne, pre', registered, post', keys', rfl, hkey⟩ := hvalid.isolation.2.1 q hq
    exact ⟨hne, pre', registered, _, keys', List.append_assoc _ _ _, hkey⟩
  · rw [hall hidle hbytes room, Log.flatten_sentTo]

/-! ### The end of a tick -/

end Server

namespace System

variable {s : System} {t : ℕ}

theorem next_joinAcquire {i : ℕ} (hpc : (s.threads t).pc = .joinAcquire i)
    (hfree : s.controllers (s.job t i) = false) :
    s.next (.room t) = some (((s.withController (s.job t i) true).threadGoto t
      (.joinRelease i)).unlock (.room t) []) := by
  simp only [next, locked, roomExec, hpc, RoomPc.wants, hfree, Bool.false_eq_true, if_false,
    Option.map_some]

theorem next_joinRelease {i : ℕ} (hpc : (s.threads t).pc = .joinRelease i) :
    s.next (.room t) = some (((s.withController (s.job t i) false).threadGoto t
      (if i + 1 < (s.threads t).connections.length then .joinAcquire (i + 1) else .sleep)).unlock
        (.room t) []) := by
  simp only [next, locked, roomExec, hpc, RoomPc.wants, Option.map_some]

theorem threads_threadGoto (s : System) (t : ℕ) (pc : RoomPc) (id : ThreadId) :
    ((s.threadGoto t pc).unlock id []).threads t = { s.threads t with pc := pc } :=
  Function.update_self t _ s.threads

/-- What the room thread does when it joins does not touch. -/
structure Joined (s : System) (t : ℕ) (pc : RoomPc) (s' : System) : Prop where
  thread : s'.threads t = { s.threads t with pc := pc }
  controllers : s'.controllers = s.controllers
  accumulator : s'.accumulator = s.accumulator
  spawned : s'.spawned = s.spawned
  log : s'.log = s.log

/-- When the job of a connection has ended, the room thread joins it. -/
theorem run_join (keys : KeyManager) {i : ℕ} (hpc : (s.threads t).pc = .joinAcquire i)
    (hfree : s.controllers (s.job t i) = false) :
    ∃ s', (relaySystem keys).run s [.room t, .room t] = some s' ∧ s.Joined t
      (if i + 1 < (s.threads t).connections.length then .joinAcquire (i + 1) else .sleep) s' := by
  obtain ⟨u, hu⟩ : ∃ u, u = ((s.withController (s.job t i) true).threadGoto t
      (.joinRelease i)).unlock (.room t) [] := ⟨_, rfl⟩
  have hthread : u.threads t = { s.threads t with pc := .joinRelease i } :=
    hu ▸ threads_threadGoto ..
  have hcontrollers : u.controllers = Function.update s.controllers (s.job t i) true := hu ▸ rfl
  have hjob : u.job t i = s.job t i := by rw [job, job, hthread]
  have hnext : s.next (.room t) = some u := by rw [hu, next_joinAcquire hpc hfree]
  have hrun : (relaySystem keys).run s [.room t, .room t] = u.next (.room t) :=
    (Option.bind_congr' hnext fun _ _ => rfl).trans (Machine.run_singleton (relaySystem keys) _ _)
  refine ⟨_, hrun.trans (next_joinRelease (congrArg RoomThread.pc hthread)), ?_⟩
  refine ⟨?_, ?_, ?_, ?_, ?_⟩
  · rw [threads_threadGoto, withController, hthread]
  · change Function.update u.controllers (u.job t i) false = s.controllers
    rw [hcontrollers, hjob, Function.update_idem, ← hfree, Function.update_eq_self]
  · change u.accumulator = s.accumulator
    rw [hu]; rfl
  · change u.spawned = s.spawned
    rw [hu]; rfl
  · change u.log = s.log
    rw [hu]; rfl

theorem Joined.trans {pc pc' : RoomPc} {u s' : System} (h : s.Joined t pc u)
    (h' : u.Joined t pc' s') : s.Joined t pc' s' where
  thread := h'.thread.trans (by rw [h.thread])
  controllers := h'.controllers.trans h.controllers
  accumulator := h'.accumulator.trans h.accumulator
  spawned := h'.spawned.trans h.spawned
  log := h'.log.trans h.log

/-- When all jobs of the tick have ended, the room thread leaves the tick. -/
theorem run_joins (keys : KeyManager) {n i : ℕ} (hpc : (s.threads t).pc = .joinAcquire i)
    (hn : i + n + 1 = (s.threads t).connections.length)
    (hfree : ∀ k, i ≤ k → k < (s.threads t).connections.length →
      s.controllers (s.job t k) = false) :
    ∃ s', (relaySystem keys).run s (List.replicate (2 + 2 * n) (.room t)) = some s' ∧
      s.Joined t .sleep s' := by
  induction n generalizing s i with
  | zero =>
    obtain ⟨s', hrun, h⟩ := run_join keys hpc (hfree i le_rfl (by omega))
    rw [if_neg (by omega)] at h
    exact ⟨s', hrun, h⟩
  | succ n ih =>
    obtain ⟨u, hrun, h⟩ := run_join keys hpc (hfree i le_rfl (by omega))
    rw [if_pos (by omega)] at h
    have hjob : ∀ k, u.job t k = s.job t k := fun k => by rw [job, job, h.thread]
    obtain ⟨s', hrun', h'⟩ := ih (s := u) (i := i + 1) (by rw [h.thread])
      (by rw [h.thread]; change i + 1 + n + 1 = (s.threads t).connections.length; omega)
      fun k hk hlt => by
        rw [h.controllers, hjob]
        exact hfree k (by omega) (by rw [h.thread] at hlt; exact hlt)
    refine ⟨s', ?_, h.trans h'⟩
    rw [show 2 + 2 * (n + 1) = 2 + (2 + 2 * n) by omega, List.replicate_add, Machine.run_append,
      show List.replicate 2 (Label.room t) = [.room t, .room t] from rfl, hrun]
    exact hrun'

end System

namespace Server

variable {keys : KeyManager}

/-- The sections of a room thread leave the connections alone. -/
theorem run_room (s : System) (cs : Connections) (t n : ℕ) :
    (relayServer keys).run (s, cs) (List.replicate n (.relay (.room t))) =
      ((relaySystem keys).run s (List.replicate n (.room t))).map fun s' => (s', cs) := by
  induction n generalizing s with
  | zero => rfl
  | succ n ih =>
    rw [List.replicate_succ, List.replicate_succ, Machine.run, Machine.run]
    have hnext : (relayServer keys).next (s, cs) (.relay (.room t)) =
        ((relaySystem keys).next s (.room t)).map fun s' => (s', cs) := by
      rw [← Machine.run_singleton (relaySystem keys), Option.map_eq_bind]
      rfl
    rw [hnext]
    cases (relaySystem keys).next s (.room t) with
    | none => rfl
    | some s' => exact ih s'

/-! ### A run -/

/-- The run goes on: the room is created, the other client opens its connection and sends a message
with two bytes, and the tick sends them to the moon client. The write of the moon client's
connection ends, and the tick sends nothing to the other client. -/
def tickLabels : List ServerLabel :=
  keyLabels ++ List.replicate 28 (.relay .relay) ++
    List.replicate 2 (.connection moonHandle .io) ++
    [.relay (.onOpen plebHandle), .relay .relay, .relay .relay,
      .connection plebHandle (.read ([0x82, 0x86, 0, 0, 0, 0] ++ plebKey.bytes ++ [104, 105])),
      .connection plebHandle .io] ++
    List.replicate 16 (.relay .relay) ++ List.replicate 2 (.connection plebHandle .io) ++
    List.replicate 6 (.relay (.room 0)) ++ List.replicate 3 (.relay (.worker 0)) ++
    List.replicate 5 (.relay (.room 0)) ++ List.replicate 3 (.relay (.worker 0)) ++
    List.replicate 3 (.connection moonHandle (.sender 0)) ++
    [.connection moonHandle .writeFrame, .connection moonHandle (.transmit 0 4),
      .connection moonHandle (.endWrite 0 false), .connection moonHandle .io] ++
    .relay (.worker 0) :: List.replicate 3 (.relay (.worker 1)) ++
    List.replicate 4 (.relay (.room 0)) ++ List.replicate 3 (.relay (.worker 1)) ++
    List.replicate 3 (.connection plebHandle (.sender 1)) ++ [.relay (.worker 1)]

/-- Both jobs have ended, and the tick ends. -/
def greetingLabels : List ServerLabel := tickLabels ++ List.replicate 4 (.relay (.room 0))

/-- The entry accepts the two bytes when the moon client is registered. -/
def greets : LogEntry → Bool
  | .accepted room q registered => decide (room = moonKey ∧ q.sender = plebHandle ∧
      q.payload = [104, 105] ∧ ⟨65534, moonHandle⟩ ∈ registered)
  | _ => false

theorem attends_of_greets {log : List LogEntry} (h : log.any greets = true)
    (hkept : log.all (fun x => !x.destroys moonKey) = true) :
    ∃ q, Log.Attends log moonKey q ⟨65534, moonHandle⟩ ∧ q.sender = plebHandle ∧
      q.payload = [104, 105] := by
  obtain ⟨x, hx, hgreets⟩ := List.any_eq_true.1 h
  cases x <;> simp only [greets, Bool.false_eq_true] at hgreets
  rename_i room q registered
  obtain ⟨rfl, hsender, hpayload, he⟩ := of_decide_eq_true hgreets
  obtain ⟨pre, post, rfl⟩ := List.append_of_mem hx
  refine ⟨q, ⟨pre, registered, post, rfl, he, fun lost hlost => ?_⟩, hsender, hpayload⟩
  have hmem : .destroyed moonKey lost ∈ pre ++ .accepted moonKey q registered :: post :=
    List.mem_append_right _ (List.mem_cons_of_mem _ hlost)
  simpa [LogEntry.destroys] using List.all_eq_true.1 hkept _ hmem

/-- What there is after it: the moon client has two bytes to read, and everything is at rest. -/
structure Greeted (u : System × Connections) : Prop where
  wire : (u.2 moonHandle).writer.wire = [0x82, 2, 104, 105]
  reads : (u.2 plebHandle).reads.flatten = [0x82, 0x86, 0, 0, 0, 0] ++ plebKey.bytes ++ [104, 105]
  size : ∀ x ∈ Log.sentTo u.1.log moonHandle, (payloads x.2).length = 2
  idle : (u.2 moonHandle).Idle
  pending : u.1.accumulator.pending moonKey = []
  rest : ∀ t, ¬ (u.1.threads t).pc.InTick
  attends : ∃ q, Log.Attends u.1.log moonKey q ⟨65534, moonHandle⟩ ∧ q.sender = plebHandle ∧
    q.payload = [104, 105]

theorem exists_greeting : ∃ u,
    (relayServer moonTable).run (relayServer moonTable).init greetingLabels = some u ∧
      Greeted u := by
  have hrun : ((relayServer moonTable).run (relayServer moonTable).init tickLabels).any
      (fun u => decide ((u.2 moonHandle).writer.wire = [0x82, 2, 104, 105] ∧
        (u.2 plebHandle).reads.flatten =
          [0x82, 0x86, 0, 0, 0, 0] ++ plebKey.bytes ++ [104, 105] ∧
        ((Log.sentTo u.1.log moonHandle).map fun x => (payloads x.2).length) = [2] ∧
        ((u.2 moonHandle).state = .opened ∧ (u.2 moonHandle).io = [] ∧
          (u.2 moonHandle).writer.posted = 0 ∧ (u.2 moonHandle).writer.writes = []) ∧
        u.1.accumulator.pending moonKey = [] ∧ u.1.spawned = 1 ∧
        (u.1.log.any greets = true ∧ u.1.log.all (fun x => !x.destroys moonKey) = true) ∧
        (u.1.threads 0).pc = .joinAcquire 0 ∧ (u.1.threads 0).tick = 1 ∧
        (u.1.threads 0).connections.length = 2 ∧
        u.1.controllers ⟨0, 1, 0⟩ = false ∧ u.1.controllers ⟨0, 1, 1⟩ = false)) = true := by
    decide +kernel
  obtain ⟨u, hu, hp⟩ := (Option.any_eq_true _ _).1 hrun
  obtain ⟨hwire, hreads, hlengths, ⟨hs, hio, hposted, hwrites⟩, hpending, hspawned,
    ⟨hgreets, hkept⟩, hpc, htick, hconnections, hfirst, hsecond⟩ := of_decide_eq_true hp
  obtain ⟨s', hrun', h⟩ := System.run_joins moonTable (n := 1) hpc hconnections.symm
    fun i _ hi => by
      rw [System.job, htick]
      obtain rfl | rfl : i = 0 ∨ i = 1 := by omega
      · exact hfirst
      · exact hsecond
  have hu' : (relayServer moonTable).run (relayServer moonTable).init greetingLabels =
      some (s', u.2) := by
    rw [greetingLabels, Machine.run_append, hu]
    exact (run_room u.1 u.2 0 4).trans (by rw [hrun']; rfl)
  have hreach : (relayServer moonTable).Reachable (s', u.2) := .of_run hu'
  have hrest : ∀ t, ¬ (s'.threads t).pc.InTick := by
    intro t
    by_cases ht : t = 0
    · rw [ht, h.thread]
      exact id
    · have hle : s'.spawned ≤ t := by
        rw [h.spawned, hspawned]
        omega
      rw [System.spawned_of_reachable hreach.coupled.1 t hle]
      exact id
  refine ⟨(s', u.2), hu', hwire, hreads, fun x hx => ?_,
    ⟨hs, hio, senders_eq_none hreach hrest, hposted, hwrites⟩, h.accumulator ▸ hpending, hrest,
    h.log ▸ attends_of_greets hgreets hkept⟩
  have hlength := List.mem_map_of_mem (f := fun x => (payloads x.2).length) hx
  rw [h.log, hlengths] at hlength
  exact List.mem_singleton.1 hlength

/-- The moon client reads the two bytes: it has got what it was sent. -/
theorem relayed_greeting : ∃ u,
    (relayServer moonTable).run (relayServer moonTable).init greetingLabels = some u ∧
    ∃ msgs p got, readAll ⟨false, 32000000⟩ .new [[0x82, 2], [104, 105]] = (msgs, .ok p) ∧
      msgs.filter Message.isData =
        got.map (fun x : Hash × List Packet => { opcode := .binary, payload := payloads x.2 }) ∧
      (∀ room, (sentBy room got).flatten.Sublist (Log.acceptedIn u.1.log room)) ∧
      (∀ x ∈ got, ∀ q ∈ x.2, q.sender ≠ moonHandle ∧ Log.AcceptedForKey u.1.log x.1 q) ∧
      ∀ room, (sentBy room got).flatten = Log.receivedBy u.1.log moonHandle room := by
  obtain ⟨u, hu, hg⟩ := exists_greeting
  obtain ⟨msgs, p, got, hread, hmsgs, hsub, hpackets, hall⟩ :=
    relayed moonTable u (.of_run hu) moonHandle ⟨false, 32000000⟩ rfl
      (fun x hx => hg.size x hx ▸ by decide) [[0x82, 2], [104, 105]]
      (by rw [hg.wire]; exact List.prefix_rfl)
  exact ⟨u, hu, msgs, p, got, hread, hmsgs, hsub, hpackets, hall hg.idle (by rw [hg.wire]; rfl)⟩

end Server

end MoonJamRelay
