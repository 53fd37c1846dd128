import MoonJamRelay.History.Basic
import MoonJamRelay.Threads.State

/-!
# What the log of a relay may say

The purpose of the relay, without its threads: which entry may come next in the log.  A packet is
accepted for a key that was looked up for it; a tick takes all packets that wait in its room, after
all jobs of the earlier ticks of the room have sent; then it lists the connections of the room; then
a job for each of them sends the packets of the batch that have another identifier, once.

* `Log.pending` : the packets that wait in a room, from the log alone.
* `Log.Rule`, `Log.Valid` : the rule, and the logs that follow it.
* `Log.Valid.fate` : an accepted packet waits, or was lost with its room, or was taken by one tick.
* `Log.Valid.received_sublist` : a connection receives packets of a room in the order in which they
  were accepted.
* `Log.Valid.isolation` : what is sent, and to whom.

That the threads of the relay produce such logs is shown in `MoonJamRelay.Threads.Broadcast`.
-/

namespace MoonJamRelay

/-- The packets of a batch that other connections sent. -/
def others (handle : ConnectionHdl) (packets : List Packet) : List Packet :=
  packets.filter fun packet => packet.sender ≠ handle

/-- No packet of another connection with a payload carries the identifier of the connection. -/
def NoneWithheld (c : ReceivedConnection) (packets : List Packet) : Prop :=
  ∀ p ∈ packets, p.sender ≠ c.handle → p.identifier = c.identifier → p.payload = []

/-- When the own packets of a connection carry its identifier, a job for it leaves out bytes of
other connections unless `NoneWithheld`. -/
theorem payloads_foreign_eq_iff_of_own {c : ReceivedConnection} {packets : List Packet}
    (hown : ∀ p ∈ packets, p.sender = c.handle → p.identifier = c.identifier) :
    (payloads (foreign c.identifier packets) = payloads (others c.handle packets) ↔
      NoneWithheld c packets) ∧
    (payloads (foreign c.identifier packets)).length ≤
      (payloads (others c.handle packets)).length := by
  induction packets with
  | nil => simp [NoneWithheld, foreign, others]
  | cons p ps ih =>
    obtain ⟨ih, hle⟩ := ih fun p hp => hown p (List.mem_cons_of_mem _ hp)
    by_cases hsender : p.sender = c.handle
    · -- an own packet
      have hid := hown p List.mem_cons_self hsender
      have hothers : others c.handle (p :: ps) = others c.handle ps := by
        simp [others, hsender]
      rw [foreign_cons_self hid, hothers]
      simpa [NoneWithheld, hsender] using ⟨ih, hle⟩
    · have hothers : others c.handle (p :: ps) = p :: others c.handle ps := by
        simp [others, hsender]
      by_cases hid : p.identifier = c.identifier
      · -- a packet of another connection that is left out
        rw [foreign_cons_self hid, hothers, payloads_cons, List.length_append]
        refine ⟨⟨fun heq => ?_, fun hnone => ?_⟩, by omega⟩
        · have hlen := congrArg List.length heq
          rw [List.length_append] at hlen
          have hnil : p.payload = [] := List.length_eq_zero_iff.1 (by omega)
          rw [hnil, List.nil_append, ih] at heq
          simpa [NoneWithheld, hnil] using heq
        · rw [hnone p List.mem_cons_self hsender hid, List.nil_append, ih]
          exact fun q hq => hnone q (List.mem_cons_of_mem _ hq)
      · rw [foreign_cons_ne hid, hothers, payloads_cons, payloads_cons, List.append_right_inj, ih]
        simp only [List.length_append]
        exact ⟨by simp [NoneWithheld, hid], by omega⟩

namespace LogEntry

/-- The things that happen once. -/
inductive Key where
  | connection (handle : ConnectionHdl)
  | packet (number : ℕ)
  | batch (thread tick : ℕ)
  | snapshot (thread tick : ℕ)
  | job (job : Job)

/-- The thing an entry is about, if it happens once. -/
def key : LogEntry → Option Key
  | .opened handle _ => some (.connection handle)
  | .accepted _ packet _ => some (.packet packet.number)
  | .took thread tick _ _ => some (.batch thread tick)
  | .listed thread tick _ => some (.snapshot thread tick)
  | .sent job .. => some (.job job)
  | .resolved .. | .destroyed .. => none

/-- The message whose key was looked up last, with the table. -/
def resolve (last : Option (ConnectionHdl × List UInt8 × KeyManager)) :
    LogEntry → Option (ConnectionHdl × List UInt8 × KeyManager)
  | .resolved handle message keys => some (handle, message, keys)
  | _ => last

/-- The packets that wait in the room after the entry. -/
def wait (room : Hash) (waiting : List Packet) : LogEntry → List Packet
  | .accepted r packet _ => if r = room then waiting ++ [packet] else waiting
  | .destroyed r _ | .took _ _ r _ => if r = room then [] else waiting
  | _ => waiting

/-- The packet that was accepted into the room. -/
def acceptedIn (room : Hash) : LogEntry → List Packet
  | .accepted r packet _ => if r = room then [packet] else []
  | _ => []

/-- The packets that left the room. -/
def removedFrom (room : Hash) : LogEntry → List Packet
  | .destroyed r lost => if r = room then lost else []
  | .took _ _ r batch => if r = room then batch else []
  | _ => []

/-- The packets of the room the connection received. -/
def receivedBy (handle : ConnectionHdl) (room : Hash) : LogEntry → List Packet
  | .sent _ c r _ parts delivered =>
    if r = room ∧ c.handle = handle ∧ delivered = true then parts else []
  | _ => []

/-- The tick sent something to the connection. -/
def sentBy (thread tick : ℕ) (handle : ConnectionHdl) : LogEntry → Bool
  | .sent j c .. => decide (j.thread = thread ∧ j.tick = tick ∧ c.handle = handle)
  | _ => false

end LogEntry

namespace Log

variable (log : List LogEntry)

/-- The message whose key was looked up last, with the table. -/
def lastResolved : Option (ConnectionHdl × List UInt8 × KeyManager) :=
  log.foldl LogEntry.resolve none

/-- The packets that wait in the room. -/
def pending (room : Hash) : List Packet := log.foldl (LogEntry.wait room) []

/-- The packets accepted into the room. -/
def acceptedIn (room : Hash) : List Packet := log.flatMap (LogEntry.acceptedIn room)

/-- The packets that left the room, with a tick or when it was destroyed. -/
def removedFrom (room : Hash) : List Packet := log.flatMap (LogEntry.removedFrom room)

/-- The packets of the room the connection received. -/
def receivedBy (handle : ConnectionHdl) (room : Hash) : List Packet :=
  log.flatMap (LogEntry.receivedBy handle room)

/-- The job has called `send`. -/
def Sent (job : Job) : Prop :=
  ∃ c room bytes parts delivered, .sent job c room bytes parts delivered ∈ log

/-- All jobs of the tick have called `send`. -/
def Finished (thread tick : ℕ) : Prop :=
  ∃ connections, .listed thread tick connections ∈ log ∧
    ∀ i < connections.length, Sent log ⟨thread, tick, i⟩

/-- A message of the connection was accepted into the room. -/
def Spoke (room : Hash) (handle : ConnectionHdl) : Prop :=
  ∃ packet registered, .accepted room packet registered ∈ log ∧ packet.sender = handle

/-- What may happen next. -/
inductive Rule : LogEntry → Prop
  | opened (handle : ConnectionHdl) (identifier : UInt16) : Rule (.opened handle identifier)
  | resolved (handle : ConnectionHdl) (message : List UInt8) (keys : KeyManager) :
      Rule (.resolved handle message keys)
  | accepted (room : Hash) (packet : Packet) (registered : List ReceivedConnection)
      (keys : KeyManager) :
      lastResolved log = some (packet.sender, packet.message, keys) →
      keys.getRoom (Hash.ofBytes packet.message) = room →
      packet.payload = packet.message.drop hashLength →
      .opened packet.sender packet.identifier ∈ log →
      (∀ c ∈ registered, .opened c.handle c.identifier ∈ log) →
      (∀ c ∈ registered, c.handle ≠ packet.sender → c.identifier ≠ packet.identifier) →
      Rule (.accepted room packet registered)
  | destroyed (room : Hash) : Rule (.destroyed room (pending log room))
  | took (thread tick : ℕ) (room : Hash) :
      (∀ t n batch, .took t n room batch ∈ log → Finished log t n) →
      Rule (.took thread tick room (pending log room))
  | listed (thread tick : ℕ) (room : Hash) (batch : List Packet)
      (connections : List ReceivedConnection) : .took thread tick room batch ∈ log →
      (connections.map ReceivedConnection.identifier).Nodup →
      (∀ c ∈ connections, .opened c.handle c.identifier ∈ log ∧ Spoke log room c.handle) →
      Rule (.listed thread tick connections)
  | sent (job : Job) (c : ReceivedConnection) (room : Hash) (bytes : List UInt8)
      (batch : List Packet) (connections : List ReceivedConnection) (delivered : Bool) :
      .took job.thread job.tick room batch ∈ log →
      .listed job.thread job.tick connections ∈ log → connections[job.index]? = some c →
      assemble c.identifier batch = some bytes →
      Rule (.sent job c room bytes (foreign c.identifier batch) delivered)

/-- Every entry was allowed when it was made, and what happens once has happened once. -/
def Valid : Prop := History (fun log e => NewKey LogEntry.key log e ∧ Rule log e) log

variable {log} {room : Hash} {pre post : List LogEntry} {e : LogEntry}

/-! ### One more entry -/

@[simp] theorem lastResolved_snoc :
    lastResolved (log ++ [e]) = e.resolve (lastResolved log) := by
  simp [lastResolved]

@[simp] theorem pending_snoc : pending (log ++ [e]) room = e.wait room (pending log room) := by
  simp [pending]

@[simp] theorem acceptedIn_snoc :
    acceptedIn (log ++ [e]) room = acceptedIn log room ++ e.acceptedIn room := by
  simp [acceptedIn]

@[simp] theorem removedFrom_snoc :
    removedFrom (log ++ [e]) room = removedFrom log room ++ e.removedFrom room := by
  simp [removedFrom]

@[simp] theorem receivedBy_snoc {handle : ConnectionHdl} :
    receivedBy (log ++ [e]) handle room =
      receivedBy log handle room ++ e.receivedBy handle room := by
  simp [receivedBy]

theorem Sent.mono {job : Job} (h : Sent log job) (hsub : log ⊆ post) : Sent post job := by
  obtain ⟨c, room, bytes, parts, delivered, hm⟩ := h
  exact ⟨c, room, bytes, parts, delivered, hsub hm⟩

theorem Finished.mono {t n : ℕ} (h : Finished log t n) (hsub : log ⊆ post) :
    Finished post t n := by
  obtain ⟨connections, hl, hs⟩ := h
  exact ⟨connections, hsub hl, fun i hi => (hs i hi).mono hsub⟩

theorem Spoke.mono {handle : ConnectionHdl} (h : Spoke log room handle) (hsub : log ⊆ post) :
    Spoke post room handle := by
  obtain ⟨packet, registered, hm, hs⟩ := h
  exact ⟨packet, registered, hsub hm, hs⟩

theorem mem_acceptedIn {p : Packet} :
    p ∈ acceptedIn log room ↔ ∃ registered, .accepted room p registered ∈ log := by
  simp only [acceptedIn, List.mem_flatMap]
  constructor
  · rintro ⟨e, he, hp⟩
    cases e <;> simp only [LogEntry.acceptedIn, List.not_mem_nil] at hp
    split_ifs at hp with hr
    · obtain rfl := List.mem_singleton.1 hp
      exact ⟨_, hr ▸ he⟩
    · cases hp
  · rintro ⟨registered, he⟩
    exact ⟨_, he, by simp [LogEntry.acceptedIn]⟩

/-- The packet was accepted into the room; the key looked up last before that was the key of its
message, and the table had the room for it. -/
def AcceptedForKey (log : List LogEntry) (room : Hash) (p : Packet) : Prop :=
  ∃ pre registered post keys, log = pre ++ .accepted room p registered :: post ∧
    lastResolved pre = some (p.sender, p.message, keys) ∧
    keys.getRoom (Hash.ofBytes p.message) = room ∧ p.payload = p.message.drop hashLength

theorem mem_removedFrom {p : Packet} : p ∈ removedFrom log room ↔
    (∃ lost, .destroyed room lost ∈ log ∧ p ∈ lost) ∨
    ∃ thread tick batch, .took thread tick room batch ∈ log ∧ p ∈ batch := by
  simp only [removedFrom, List.mem_flatMap]
  constructor
  · rintro ⟨e, he, hp⟩
    cases e <;> simp only [LogEntry.removedFrom, List.not_mem_nil] at hp
    · split_ifs at hp with hr
      · exact .inl ⟨_, hr ▸ he, hp⟩
      · cases hp
    · split_ifs at hp with hr
      · exact .inr ⟨_, _, _, hr ▸ he, hp⟩
      · cases hp
  · rintro (⟨lost, he, hp⟩ | ⟨thread, tick, batch, he, hp⟩)
    · exact ⟨_, he, by simpa [LogEntry.removedFrom] using hp⟩
    · exact ⟨_, he, by simpa [LogEntry.removedFrom] using hp⟩

namespace Valid

/-! ### What happens once -/

theorem newKey (h : Valid log) : History (NewKey LogEntry.key) log := h.mono fun _ _ => And.left

theorem cut (h : Valid (pre ++ e :: post)) : Valid pre ∧ Rule pre e :=
  ⟨(History.cut h).1, (History.cut h).2.2⟩

theorem of_mem (h : Valid log) (he : e ∈ log) : ∃ pre, pre ⊆ log ∧ Valid pre ∧ Rule pre e := by
  obtain ⟨pre, hsub, hpre, -, hr⟩ := History.of_mem h he
  exact ⟨pre, hsub, hpre, hr⟩

theorem opened_unique (h : Valid log) {handle : ConnectionHdl} {i i' : UInt16}
    (hi : .opened handle i ∈ log) (hi' : .opened handle i' ∈ log) : i = i' := by
  cases h.newKey.eq_of_key hi hi' rfl rfl
  rfl

theorem accepted_unique (h : Valid log) {room' : Hash} {p p' : Packet}
    {registered registered' : List ReceivedConnection} (hp : .accepted room p registered ∈ log)
    (hp' : .accepted room' p' registered' ∈ log) (hn : p.number = p'.number) :
    room = room' ∧ p = p' ∧ registered = registered' := by
  cases h.newKey.eq_of_key hp hp' rfl (by simp [LogEntry.key, hn])
  exact ⟨rfl, rfl, rfl⟩

theorem took_unique (h : Valid log) {t n : ℕ} {room' : Hash} {batch batch' : List Packet}
    (hb : .took t n room batch ∈ log) (hb' : .took t n room' batch' ∈ log) :
    room = room' ∧ batch = batch' := by
  cases h.newKey.eq_of_key hb hb' rfl rfl
  exact ⟨rfl, rfl⟩

theorem listed_unique (h : Valid log) {t n : ℕ} {connections connections' : List ReceivedConnection}
    (hl : .listed t n connections ∈ log) (hl' : .listed t n connections' ∈ log) :
    connections = connections' := by
  cases h.newKey.eq_of_key hl hl' rfl rfl
  rfl

/-! ### Packets -/

/-- **What becomes of the packets**: those accepted into a room are those that left it followed by
those that wait in it. -/
theorem fate (h : Valid log) : acceptedIn log room = removedFrom log room ++ pending log room := by
  induction h with
  | nil => rfl
  | snoc _ hr ih =>
    rw [acceptedIn_snoc, removedFrom_snoc, pending_snoc, ih]
    cases hr.2 with
    | accepted r packet registered =>
      by_cases hrr : r = room <;>
        simp [LogEntry.acceptedIn, LogEntry.removedFrom, LogEntry.wait, hrr]
    | destroyed r | took t n r =>
      by_cases hrr : r = room <;>
        simp [LogEntry.acceptedIn, LogEntry.removedFrom, LogEntry.wait, hrr]
    | _ => simp [LogEntry.acceptedIn, LogEntry.removedFrom, LogEntry.wait]

theorem nodup_acceptedIn (h : Valid log) (room : Hash) : (acceptedIn log room).Nodup := by
  induction h with
  | nil => exact List.nodup_nil
  | snoc _ hr ih =>
    rw [acceptedIn_snoc]
    cases hr.2 with
    | accepted r packet registered =>
      simp only [LogEntry.acceptedIn]
      split_ifs
      · refine List.nodup_append.2 ⟨ih, List.nodup_singleton _, ?_⟩
        rintro p hp q hq rfl
        obtain ⟨registered', hm⟩ := mem_acceptedIn.1 hp
        exact hr.1 _ rfl _ hm (by rw [List.mem_singleton.1 hq]; rfl)
      · simpa using ih
    | _ => simpa [LogEntry.acceptedIn] using ih

theorem accepted_of_took (h : Valid log) {t n : ℕ} {batch : List Packet}
    (hb : .took t n room batch ∈ log) {p : Packet} (hp : p ∈ batch) :
    ∃ registered, .accepted room p registered ∈ log := by
  rw [← mem_acceptedIn, h.fate]
  exact List.mem_append_left _ (mem_removedFrom.2 (.inr ⟨t, n, batch, hb, hp⟩))

theorem eq_of_removed (h : Valid log) (room : Hash) {e' : LogEntry} {p : Packet} (he : e ∈ log)
    (he' : e' ∈ log) (hp : p ∈ e.removedFrom room) (hp' : p ∈ e'.removedFrom room) : e = e' := by
  have hnodup : (removedFrom log room).Nodup := by
    refine (h.nodup_acceptedIn room).sublist ?_
    rw [h.fate]
    exact List.sublist_append_left _ _
  have hsymm : Std.Symm (Function.onFun List.Disjoint (LogEntry.removedFrom room)) :=
    ⟨fun _ _ h _ hy hx => h hx hy⟩
  by_contra hne
  exact (List.nodup_flatMap.1 hnodup).2.forall he he' hne hp hp'

/-- What a tick lists: connections that spoke in its room, without repetition. -/
theorem listed_spec (h : Valid log) {t n : ℕ} {connections : List ReceivedConnection}
    (hl : .listed t n connections ∈ log) :
    (connections.map ReceivedConnection.identifier).Nodup ∧
      ∀ c ∈ connections, .opened c.handle c.identifier ∈ log := by
  obtain ⟨pre, hsub, -, hr⟩ := h.of_mem hl
  cases hr with
  | listed _ _ room batch _ hb hnodup hc => exact ⟨hnodup, fun c hm => hsub (hc c hm).1⟩

/-- What a job sends: the packets of the batch that have another identifier than its connection. -/
theorem sent_spec (h : Valid log) {j : Job} {c : ReceivedConnection} {bytes : List UInt8}
    {parts : List Packet} {delivered : Bool}
    (hs : .sent j c room bytes parts delivered ∈ log) :
    ∃ batch connections, .took j.thread j.tick room batch ∈ log ∧
      .listed j.thread j.tick connections ∈ log ∧ connections[j.index]? = some c ∧
      bytes = payloads parts ∧ parts = foreign c.identifier batch := by
  obtain ⟨pre, hsub, -, hr⟩ := h.of_mem hs
  cases hr with
  | sent _ _ _ _ batch connections _ hb hl hc hbytes =>
    refine ⟨batch, connections, hsub hb, hsub hl, hc, ?_, rfl⟩
    rw [assemble_eq] at hbytes
    split_ifs at hbytes
    exact (Option.some.inj hbytes).symm

theorem index_unique (h : Valid log) {t n i i' : ℕ} {connections : List ReceivedConnection}
    {c c' : ReceivedConnection} (hl : .listed t n connections ∈ log)
    (hc : connections[i]? = some c) (hc' : connections[i']? = some c')
    (hh : c.handle = c'.handle) : i = i' := by
  obtain ⟨hnodup, hopened⟩ := h.listed_spec hl
  have ho := hopened c (List.mem_of_getElem? hc)
  rw [hh] at ho
  have hi : c.identifier = c'.identifier :=
    h.opened_unique ho (hopened c' (List.mem_of_getElem? hc'))
  have hlt : i < (connections.map ReceivedConnection.identifier).length := by
    rw [List.length_map]
    exact (List.getElem?_eq_some_iff.1 hc).1
  refine (List.getElem?_inj hlt hnodup).1 ?_
  rw [List.getElem?_map, List.getElem?_map, hc, hc', Option.map_some, Option.map_some, hi]

/-- A tick has one job for a connection. -/
theorem job_unique (h : Valid log) {j j' : Job} {c c' : ReceivedConnection}
    {connections connections' : List ReceivedConnection}
    (hl : .listed j.thread j.tick connections ∈ log) (hc : connections[j.index]? = some c)
    (hl' : .listed j'.thread j'.tick connections' ∈ log) (hc' : connections'[j'.index]? = some c')
    (ht : j.thread = j'.thread) (hn : j.tick = j'.tick) (hh : c.handle = c'.handle) : j = j' := by
  obtain ⟨t, n, i⟩ := j
  obtain ⟨t', n', i'⟩ := j'
  obtain rfl : t = t' := ht
  obtain rfl : n = n' := hn
  obtain rfl := h.listed_unique hl hl'
  exact congrArg (Job.mk t n) (h.index_unique hl hc hc' hh)

/-- Nothing was sent by the tick to the connection. -/
def NotSent (log : List LogEntry) (t n : ℕ) (handle : ConnectionHdl) : Prop :=
  ∀ e ∈ log, LogEntry.sentBy t n handle e = false

theorem notSent_of_newKey (h : Valid log) {j : Job} {c : ReceivedConnection}
    {connections : List ReceivedConnection} (hl : .listed j.thread j.tick connections ∈ log)
    (hc : connections[j.index]? = some c) (hnew : ∀ e ∈ log, e.key ≠ some (.job j)) :
    NotSent log j.thread j.tick c.handle := by
  intro e he
  by_contra hs
  rw [Bool.not_eq_false] at hs
  cases e <;> simp only [LogEntry.sentBy, Bool.false_eq_true] at hs
  rename_i j' c' room' bytes' parts' delivered'
  obtain ⟨ht, hn, hh⟩ := of_decide_eq_true hs
  obtain ⟨batch', connections', -, hl', hc', -⟩ := h.sent_spec he
  obtain rfl := h.job_unique hl' hc' hl hc ht hn hh
  exact hnew _ he rfl

theorem unfinished_of_newKey (h : Valid log) {j : Job} {c : ReceivedConnection}
    {connections : List ReceivedConnection} (hl : .listed j.thread j.tick connections ∈ log)
    (hc : connections[j.index]? = some c) (hnew : ∀ e ∈ log, e.key ≠ some (.job j)) :
    ¬ Finished log j.thread j.tick := by
  rintro ⟨connections', hl', hsent⟩
  rw [h.listed_unique hl' hl] at hsent
  obtain ⟨hlt, -⟩ := List.getElem?_eq_some_iff.1 hc
  obtain ⟨c', room', bytes', parts', delivered', hm⟩ := hsent j.index hlt
  exact hnew _ hm rfl

theorem unfinished_unique (h : Valid log) {t n t' n' : ℕ} {batch batch' : List Packet}
    (hb : .took t n room batch ∈ log) (hb' : .took t' n' room batch' ∈ log)
    (hf : ¬ Finished log t n) (hf' : ¬ Finished log t' n') : t = t' ∧ n = n' := by
  induction h with
  | nil => cases hb
  | @snoc log e h hr ih =>
    have hsub : log ⊆ log ++ [e] := List.subset_append_left _ _
    -- a tick in the log before the last entry is finished when a new one begins
    have hnew : ∀ t n batch t' n' batch', .took t n room batch ∈ log →
        ¬ Finished (log ++ [e]) t n → e ≠ .took t' n' room batch' := by
      rintro t n batch t' n' batch' htook hunfinished rfl
      cases hr.2 with
      | took _ _ _ hfin => exact hunfinished ((hfin t n batch htook).mono hsub)
    rw [List.mem_append, List.mem_singleton] at hb hb'
    rcases hb with hb | hb <;> rcases hb' with hb' | hb'
    · exact ih hb hb' (fun h => hf (h.mono hsub)) (fun h => hf' (h.mono hsub))
    · exact absurd hb'.symm (hnew _ _ _ _ _ _ hb hf)
    · exact absurd hb.symm (hnew _ _ _ _ _ _ hb' hf')
    · rw [← hb'] at hb
      cases hb
      exact ⟨rfl, rfl⟩

/-- The invariant for the order: what the connection received is in order, and so it stays if the
tick that is not finished sends to it. -/
theorem received_order (h : Valid log) (handle : ConnectionHdl) :
    (receivedBy log handle room ++ pending log room).Sublist (acceptedIn log room) ∧
    ∀ t n batch, .took t n room batch ∈ log → ¬ Finished log t n → NotSent log t n handle →
      (receivedBy log handle room ++ (batch ++ pending log room)).Sublist
        (acceptedIn log room) := by
  induction h with
  | nil => exact ⟨List.Sublist.refl _, fun _ _ _ hb => by cases hb⟩
  | @snoc log e h hr ih =>
    obtain ⟨ih, ihtick⟩ := ih
    have hvalid : Valid log := h
    have hsub : log ⊆ log ++ [e] := List.subset_append_left _ _
    have htick : ∀ t n batch, .took t n room batch ∈ log → ¬ Finished (log ++ [e]) t n →
        NotSent (log ++ [e]) t n handle →
        (receivedBy log handle room ++ (batch ++ pending log room)).Sublist
          (acceptedIn log room) := fun t n batch hb hf hns =>
      ihtick t n batch hb (fun h => hf (h.mono hsub)) (fun e he => hns e (hsub he))
    rw [receivedBy_snoc, pending_snoc, acceptedIn_snoc]
    cases hr.2 with
    | opened | resolved | listed =>
      simp only [LogEntry.receivedBy, LogEntry.wait, LogEntry.acceptedIn, List.append_nil]
      refine ⟨ih, fun t n batch hb => htick t n batch ?_⟩
      simpa using hb
    | accepted r packet registered =>
      simp only [LogEntry.receivedBy, LogEntry.wait, LogEntry.acceptedIn, List.append_nil]
      have hb' : ∀ {t n batch}, .took t n room batch ∈ log ++ [.accepted r packet registered] →
          .took t n room batch ∈ log := by simp
      split_ifs with hrr
      · refine ⟨?_, fun t n batch hb hf hns => ?_⟩
        · simpa using ih.append_right [packet]
        · simpa using (htick t n batch (hb' hb) hf hns).append_right [packet]
      · rw [List.append_nil]
        exact ⟨ih, fun t n batch hb => htick t n batch (hb' hb)⟩
    | destroyed r =>
      simp only [LogEntry.receivedBy, LogEntry.wait, LogEntry.acceptedIn, List.append_nil]
      have hb' : ∀ {t n batch}, .took t n room batch ∈ log ++ [.destroyed r (pending log r)] →
          .took t n room batch ∈ log := by simp
      split_ifs with hrr
      · refine ⟨?_, fun t n batch hb hf hns => ?_⟩
        · rw [List.append_nil]
          exact (List.sublist_append_left _ _).trans ih
        · rw [List.append_nil]
          refine List.Sublist.trans ?_ (htick t n batch (hb' hb) hf hns)
          exact (List.sublist_append_left _ _).append_left _
      · exact ⟨ih, fun t n batch hb => htick t n batch (hb' hb)⟩
    | took t' n' r hfin =>
      simp only [LogEntry.receivedBy, LogEntry.wait, LogEntry.acceptedIn, List.append_nil]
      split_ifs with hrr
      · -- the batch of the new tick is what was waiting; all other ticks of the room are finished
        subst hrr
        rw [List.append_nil]
        refine ⟨(List.sublist_append_left _ _).trans ih, fun t n batch hb hf hns => ?_⟩
        rw [List.mem_append, List.mem_singleton] at hb
        rcases hb with hb | hb
        · exact absurd ((hfin t n batch hb).mono hsub) hf
        · cases hb
          simpa using ih
      · refine ⟨ih, fun t n batch hb => htick t n batch ?_⟩
        rw [List.mem_append, List.mem_singleton] at hb
        refine hb.resolve_right fun he => hrr ?_
        cases he
        rfl
    | sent j c r bytes batch connections delivered hb hl hc hbytes =>
      simp only [LogEntry.wait, LogEntry.acceptedIn, List.append_nil]
      have hb' : ∀ {t n batch'}, .took t n room batch' ∈ log ++ [.sent j c r bytes
          (foreign c.identifier batch) delivered] → .took t n room batch' ∈ log := by simp
      simp only [LogEntry.receivedBy]
      split_ifs with hrec
      · obtain ⟨rfl, hch, -⟩ := hrec
        have hunfinished := hvalid.unfinished_of_newKey hl hc (hr.1 _ rfl)
        have hnot := hvalid.notSent_of_newKey hl hc (hr.1 _ rfl)
        have horder := ihtick _ _ batch hb hunfinished (hch ▸ hnot)
        refine ⟨?_, fun t n batch' hbt hf hns => ?_⟩
        · refine List.Sublist.trans ?_ horder
          rw [List.append_assoc]
          exact (List.filter_sublist.append_right _).append_left _
        · -- the only tick that is not finished has sent to the connection
          obtain ⟨rfl, rfl⟩ := hvalid.unfinished_unique (hb' hbt) hb (fun h => hf (h.mono hsub))
            hunfinished
          have := hns _ (List.mem_append_right _ (List.mem_singleton_self _))
          simp [LogEntry.sentBy, hch] at this
      · simp only [List.append_nil]
        exact ⟨ih, fun t n batch' hbt => htick t n batch' (hb' hbt)⟩

/-- **In order**: a connection receives packets of a room in the order in which they were accepted,
and no packet twice. -/
theorem received_sublist (h : Valid log) (handle : ConnectionHdl) :
    (receivedBy log handle room).Sublist (acceptedIn log room) :=
  (List.sublist_append_left _ _).trans (h.received_order handle).1

/-! ### What is sent to whom -/

theorem acceptedForKey (h : Valid log) {p : Packet} {registered : List ReceivedConnection}
    (ha : .accepted room p registered ∈ log) : AcceptedForKey log room p := by
  obtain ⟨pre, post, rfl⟩ := List.append_of_mem ha
  obtain ⟨-, hr⟩ := h.cut
  cases hr with
  | accepted _ _ _ keys hresolved hroom hpayload =>
    exact ⟨pre, registered, post, keys, rfl, hresolved, hroom, hpayload⟩

/-- A packet of a batch carries the identifier its sender was given. -/
theorem opened_of_took (h : Valid log) {t n : ℕ} {batch : List Packet}
    (hb : .took t n room batch ∈ log) {p : Packet} (hp : p ∈ batch) :
    .opened p.sender p.identifier ∈ log := by
  obtain ⟨registered, ha⟩ := h.accepted_of_took hb hp
  obtain ⟨pre, hsub, -, hr⟩ := h.of_mem ha
  cases hr with
  | accepted _ _ _ _ _ _ _ hopened => exact hsub hopened

/-- **Rooms do not mix, and nothing is sent back**: the bytes sent to a connection come from packets
of other connections that were accepted into the room of the tick, and the connection has had a
packet accepted into that room before. -/
theorem isolation {j : Job} {c : ReceivedConnection} {bytes : List UInt8} {parts : List Packet}
    {delivered : Bool} (h : Valid (pre ++ .sent j c room bytes parts delivered :: post)) :
    bytes = payloads parts ∧ (∀ p ∈ parts, p.sender ≠ c.handle ∧ AcceptedForKey pre room p) ∧
      ∃ p, p.sender = c.handle ∧ AcceptedForKey pre room p := by
  obtain ⟨hpre, hr⟩ := h.cut
  cases hr with
  | sent _ _ _ _ batch connections _ hb hl hc hbytes =>
    have hm := List.mem_of_getElem? hc
    have hopened := (hpre.listed_spec hl).2 c hm
    refine ⟨?_, fun p hp => ?_, ?_⟩
    · rw [assemble_eq] at hbytes
      split_ifs at hbytes
      exact (Option.some.inj hbytes).symm
    · obtain ⟨hmem, hne⟩ := List.mem_filter.1 hp
      obtain ⟨registered, ha⟩ := hpre.accepted_of_took hb hmem
      refine ⟨fun hsender => ?_, hpre.acceptedForKey ha⟩
      have hop := hpre.opened_of_took hb hmem
      rw [hsender] at hop
      simp [hpre.opened_unique hop hopened] at hne
    · obtain ⟨pre', hsub, -, hr'⟩ := hpre.of_mem hl
      cases hr' with
      | listed _ _ room' batch' _ hb' _ hspoke =>
        obtain ⟨rfl, -⟩ := hpre.took_unique (hsub hb') hb
        obtain ⟨p, registered, ha, hsender⟩ := (hspoke c hm).2
        exact ⟨p, hsender, hpre.acceptedForKey (hsub ha)⟩

/-- A job leaves out packets of other connections only if they carry the identifier of its
connection. -/
theorem payloads_foreign_eq_iff (h : Valid log) {t n : ℕ} {batch : List Packet}
    (hb : .took t n room batch ∈ log) {c : ReceivedConnection}
    (hc : .opened c.handle c.identifier ∈ log) :
    payloads (foreign c.identifier batch) = payloads (others c.handle batch) ↔
      NoneWithheld c batch := by
  refine (payloads_foreign_eq_iff_of_own fun p hp hsender => ?_).1
  have hopened := h.opened_of_took hb hp
  rw [hsender] at hopened
  exact h.opened_unique hopened hc

end Valid

end Log

end MoonJamRelay
