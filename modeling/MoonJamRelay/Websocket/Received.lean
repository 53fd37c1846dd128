import MoonJamRelay.Merge.Basic
import MoonJamRelay.Websocket.Callbacks

/-!
# What the two ends receive

Both directions of a connection from end to end, through the queue, the frames and the reads.

* `Traffic` : what an event does to the messages that are on the way.
* `Connection.SentInv` : every message that was accepted was sent by somebody, and the messages of
  one sender are accepted in the order in which it sent them.
* `sends_received` : what a client reads was sent, by each thread in that order, and is complete
  when an open connection has come to rest.
* `messages_handled` : the message handler is called for the messages of a client in their order.
-/

namespace MoonJamRelay

namespace Websocket

variable {c c' u : Connection} {e : Event} {t : Task} {t' : Option Task} {m : Message}
  {s : Option ℕ} {data : List UInt8} {calls calls' tagged : List (Option ℕ × List UInt8)}

/-! ### Who has sent what -/

/-- The message that an event begins to send, with its sender: a thread, or the message handler. -/
def Event.sent : Event → Option (Option ℕ × List UInt8)
  | .call k data => some (some k, data)
  | .handlerSend data => some (none, data)
  | _ => none

/-- The message that a task is about to send. -/
def Task.data? : Task → Option (List UInt8)
  | .relaySend data | .send data => some data
  | .prepareData m => some m.payload
  | _ => none

/-- What a sender is about to send. -/
def Connection.unsent (c : Connection) : Option ℕ → List (List UInt8)
  | none => c.io.filterMap Task.data?
  | some k => ((c.senders k).bind Task.data?).toList

/-- The binary messages among some messages. -/
def binaries (ms : List Message) : List (List UInt8) :=
  (ms.filter fun m => m.opcode = .binary).map Message.payload

@[simp] theorem binaries_append (ms ms' : List Message) :
    binaries (ms ++ ms') = binaries ms ++ binaries ms' := by
  simp [binaries]

/-- What an event does to the messages that are on the way: some may be given up, unless the
connection is open; or one is accepted; or somebody begins to send one. -/
inductive Traffic (c : Connection) (e : Event) (c' : Connection) : Prop
  | quiet (hsent : e.sent = none)
      (haccepted : binaries c'.writer.accepted = binaries c.writer.accepted)
      (hunsent : ∀ s, (c'.unsent s).Sublist (c.unsent s))
      (hopened : c'.state = .opened → ∀ s, c'.unsent s = c.unsent s) : Traffic c e c'
  | accept (s : Option ℕ) (data : List UInt8) (hsent : e.sent = none)
      (haccepted : binaries c'.writer.accepted = binaries c.writer.accepted ++ [data])
      (hself : c.unsent s = [data] ∧ c'.unsent s = [])
      (hother : ∀ s' ≠ s, c'.unsent s' = c.unsent s') : Traffic c e c'
  | begin (s : Option ℕ) (data : List UInt8) (hsent : e.sent = some (s, data))
      (haccepted : binaries c'.writer.accepted = binaries c.writer.accepted)
      (hself : c'.unsent s = c.unsent s ++ [data])
      (hother : ∀ s' ≠ s, c'.unsent s' = c.unsent s') : Traffic c e c'

/-! ### The steps -/

theorem data?_dispatch (b : Bool) :
    (if b then some Task.dispatch else none).bind Task.data? = none := by
  cases b <;> rfl

theorem Task.MayClose.data? (h : t.MayClose) : t.data? = none := by
  cases t with
  | relaySend data => exact h.elim
  | send data => exact h.elim
  | prepareData m => exact h.elim
  | _ => rfl

theorem Effect.binary (h : Effect c t c' t') (hfine : t.Fine) :
    (binaries c'.writer.accepted = binaries c.writer.accepted ∧
      (t'.bind Task.data? = t.data? ∨ t'.bind Task.data? = none ∧ c'.state ≠ .opened)) ∨
      ∃ data, t.data? = some data ∧ t'.bind Task.data? = none ∧
        binaries c'.writer.accepted = binaries c.writer.accepted ++ [data] := by
  cases h with
  | ends ht =>
    refine .inl ⟨rfl, ?_⟩
    cases t with
    | relaySend data => exact .inr ⟨rfl, ht⟩
    | send data => exact .inr ⟨rfl, ht⟩
    | prepareData m =>
      obtain ⟨data, rfl⟩ := hfine
      obtain ⟨out, hout, -⟩ := prepareData_outgoing data
      obtain ⟨e, he⟩ := ht
      exact nomatch hout.symm.trans he
    | relayClose reason => exact .inl rfl
    | handler => exact .inl rfl
    | _ => exact ht.elim
  | calls ht hs => cases ht <;> exact .inl ⟨rfl, .inl rfl⟩
  | push m ht =>
    rcases ht with rfl | ⟨m₀, rfl, hout⟩
    · refine .inl ⟨?_, .inl (data?_dispatch _)⟩
      change binaries (c.writer.accepted ++ [m]) = _
      rw [binaries_append]
      simp [binaries, hfine.2]
    · obtain ⟨data, rfl⟩ := hfine
      obtain ⟨out, hout', -, hop, hpayload⟩ := prepareData_outgoing data
      obtain rfl := Except.ok.inj (hout'.symm.trans hout)
      refine .inr ⟨data, rfl, data?_dispatch _, ?_⟩
      change binaries (c.writer.accepted ++ [out]) = _
      rw [binaries_append]
      simp [binaries, hop, hpayload]
  | releaseWrite => exact .inl ⟨rfl, .inl (data?_dispatch _)⟩
  | terminate ht hs code reason clean =>
    exact .inl ⟨by rw [writer_terminate]; rfl, .inl ht.data?.symm⟩
  | closing ht hs code reason clean m hm hop => exact .inl ⟨rfl, .inl ht.data?.symm⟩
  | _ => exact .inl ⟨rfl, .inl rfl⟩

theorem Effect.traffic (heff : Effect c t c' t') (hfine : t.Fine) (hsent : e.sent = none)
    (hwriter : u.writer = c'.writer) (hstate : u.state = c'.state)
    (hbefore : c.unsent s = t.data?.toList) (hafter : u.unsent s = (t'.bind Task.data?).toList)
    (hother : ∀ s' ≠ s, u.unsent s' = c.unsent s') : Traffic c e u := by
  have hself : ∀ s', s' = s ∨ u.unsent s' = c.unsent s' := fun s' => by
    by_cases hs : s' = s
    · exact .inl hs
    · exact .inr (hother s' hs)
  rcases heff.binary hfine with
    ⟨haccepted, hsame | ⟨hnone, hclosed⟩⟩ | ⟨data, hdata, hnone, haccepted⟩
  · have hall : ∀ s', u.unsent s' = c.unsent s' := by
      intro s'
      rcases hself s' with rfl | hs
      · rw [hafter, hbefore, hsame]
      · exact hs
    exact .quiet hsent (hwriter ▸ haccepted) (fun s' => hall s' ▸ List.Sublist.refl _)
      fun _ => hall
  · refine .quiet hsent (hwriter ▸ haccepted) (fun s' => ?_)
      fun hs => absurd (hstate ▸ hs) hclosed
    rcases hself s' with rfl | hs
    · rw [hafter, hnone]
      exact List.nil_sublist _
    · rw [hs]
  · refine .accept s data hsent (hwriter ▸ haccepted) ⟨?_, ?_⟩ hother
    · rw [hbefore, hdata]
      rfl
    · rw [hafter, hnone]
      rfl

theorem filterMap_data_of_later {ts : List Task} (hts : ∀ x ∈ ts, x.Later) :
    ts.filterMap Task.data? = [] := by
  refine List.filterMap_eq_nil_iff.2 fun x hx => ?_
  have hlater := hts x hx
  cases x with
  | relaySend data => exact hlater.elim
  | send data => exact hlater.elim
  | prepareData m => exact hlater.elim
  | _ => rfl

theorem Traffic.of_same (hsent : e.sent = none) (haccepted : u.writer.accepted = c.writer.accepted)
    (hsenders : u.senders = c.senders)
    (hio : u.io.filterMap Task.data? = c.io.filterMap Task.data?) : Traffic c e u := by
  have hsame : ∀ s, u.unsent s = c.unsent s := by
    intro s
    cases s with
    | none => exact hio
    | some k => rw [Connection.unsent, Connection.unsent, hsenders]
  exact .quiet hsent (by rw [haccepted]) (fun s => hsame s ▸ List.Sublist.refl _) fun _ => hsame

theorem Traffic.terminate (hsent : e.sent = none)
    (haccepted : u.writer.accepted = c.writer.accepted) (hsenders : u.senders = c.senders)
    (hio : u.io = c.io) : Traffic c e u.terminate := by
  obtain ⟨hio', hsenders', -, -⟩ := sameThreads_terminate u
  exact .of_same hsent (by rw [writer_terminate, haccepted]) (hsenders'.trans hsenders)
    (by rw [hio', hio])

theorem unsent_update {k : ℕ} (hsenders : u.senders = Function.update c.senders k t')
    (hio : u.io = c.io) : u.unsent (some k) = (t'.bind Task.data?).toList ∧
      ∀ s' ≠ some k, u.unsent s' = c.unsent s' := by
  refine ⟨by rw [Connection.unsent, hsenders, Function.update_self], fun s' hs' => ?_⟩
  cases s' with
  | none => rw [Connection.unsent, Connection.unsent, hio]
  | some k' =>
    have hk : k' ≠ k := fun hk => hs' (congrArg some hk)
    rw [Connection.unsent, Connection.unsent, hsenders, Function.update_of_ne hk]

theorem Step.traffic (hstep : Step c e c') (hd : c.Disciplined) (hw : ∃ phase, c.WriteInv phase) :
    Traffic c e c' := by
  obtain ⟨phase, hinv⟩ := hw
  cases hstep with
  | @io t rest c₁ t' hio heff =>
    have hrest : rest.filterMap Task.data? = [] :=
      filterMap_data_of_later fun x hx => hd.later x (by rw [hio]; exact hx)
    have hsenders : c₁.senders = c.senders := heff.sameThreads.senders
    refine heff.traffic (s := none) (hd.fine t (by rw [hio]; exact List.mem_cons_self)) rfl rfl rfl
      ?_ ?_ ?_
    · rw [Connection.unsent, hio, List.filterMap_cons, hrest]
      cases t.data? <;> rfl
    · rw [Connection.unsent, List.filterMap_append, hrest, List.append_nil]
      cases t' with
      | none => rfl
      | some x =>
        cases hx : x.data? <;> simp [hx]
    · intro s' hs'
      cases s' with
      | none => exact absurd rfl hs'
      | some k => rw [Connection.unsent, Connection.unsent, hsenders]
  | @sender k t c₁ t' hk heff =>
    obtain ⟨-, hfine⟩ := hd.senders k t hk
    have hio : c₁.io = c.io := heff.sameThreads.io
    obtain ⟨hself, hother⟩ :=
      unsent_update (u := { c₁ with senders := Function.update c.senders k t' }) rfl hio
    refine heff.traffic (s := some k) hfine rfl rfl rfl ?_ hself hother
    rw [Connection.unsent, hk, Option.bind_some]
  | @call k hk data =>
    have hsenders : { c with
        senders := Function.update c.senders k (some (.relaySend data)) }.senders =
      Function.update c.senders k (some (.relaySend data)) := rfl
    obtain ⟨hself, hother⟩ := unsent_update hsenders rfl
    refine .begin (some k) data rfl rfl ?_ hother
    rw [hself, Connection.unsent, hk]
    rfl
  | read hreading hio bytes =>
    obtain ⟨-, hwriter, hsenders, -⟩ := handleReadFrame_frame c bytes
    refine .of_same rfl (by rw [hwriter]) hsenders ?_
    rw [filterMap_data_of_later (handleReadFrame_later c bytes), hio]
    rfl
  | readFailed hreading hio => exact .terminate rfl rfl rfl rfl
  | timeout htimer hio => exact .terminate rfl rfl rfl rfl
  | writeFrame hposted hio => exact .of_same rfl (accepted_writeFrame _) rfl rfl
  | transmit hw =>
    obtain ⟨rest, -, rfl⟩ := Option.map_eq_some_iff.1 hw
    exact .of_same rfl rfl rfl rfl
  | @endWrite i failed w hio hw =>
    obtain ⟨-, -, haccepted, -⟩ := hinv.sound.endWrite hw
    rcases handleWriteFrame_cases { c with writer := w } failed with ⟨-, heq⟩ | ⟨-, heq⟩
    · rw [heq]
      exact .terminate rfl haccepted rfl rfl
    · rw [heq]
      exact .of_same rfl haccepted rfl (by rw [hio]; rfl)
  | shutdown hs => exact .of_same rfl rfl rfl rfl
  | @handler _ t rest hio ht =>
    rcases ht with ⟨data, rfl, rfl⟩ | ⟨reason, rfl, rfl⟩
    · have hrest : rest.filterMap Task.data? = [] :=
        filterMap_data_of_later fun x hx => hd.later x (by rw [hio]; exact hx)
      refine .begin none data rfl rfl ?_ fun s' hs' => ?_
      · have hnone : c.io.filterMap Task.data? = [] := by
          rw [hio, List.filterMap_cons, hrest]
          rfl
        change (Task.send data :: c.io).filterMap Task.data? = c.io.filterMap Task.data? ++ [data]
        rw [List.filterMap_cons, hnone]
        rfl
      · cases s' with
        | none => exact absurd rfl hs'
        | some k => rfl
    · exact .of_same rfl rfl rfl rfl

theorem traffic_of_next (hc : connection.Reachable c) (h : c.next e = some c') : Traffic c e c' :=
  (next_step h).traffic (disciplined_of_reachable hc) (writeInv_of_reachable hc)

/-! ### Who has sent what was accepted -/

/-- Every binary message that was accepted was sent by somebody, as `tagged` says; as long as the
connection is open none is left out. -/
structure Connection.SentInv (c : Connection) (calls tagged : List (Option ℕ × List UInt8)) :
    Prop where
  accepted : tagged.map Prod.snd = binaries c.writer.accepted
  merged : Merged (c.state = .opened) c.unsent calls tagged

theorem Traffic.sentInv (h : Traffic c e c') (hopened : c'.state = .opened → c.state = .opened)
    (hinv : c.SentInv calls tagged) : ∃ tagged, c'.SentInv (calls ++ e.sent.toList) tagged := by
  cases h with
  | quiet hsent haccepted hunsent hsame =>
    rw [hsent, Option.toList_none, List.append_nil]
    exact ⟨tagged, hinv.accepted.trans haccepted.symm,
      hinv.merged.giveUp hunsent fun hs => ⟨hopened hs, hsame hs⟩⟩
  | accept s data hsent haccepted hself hother =>
    rw [hsent, Option.toList_none, List.append_nil]
    refine ⟨tagged ++ [(s, data)], ?_, hinv.merged.accept hself hother hopened⟩
    rw [List.map_append, hinv.accepted, haccepted]
    rfl
  | begin s data hsent haccepted hself hother =>
    rw [hsent]
    exact ⟨tagged, hinv.accepted.trans haccepted.symm, hinv.merged.begin hself hother hopened⟩

/-- The connection with what was sent. -/
def sending : Machine (Connection × List (Option ℕ × List UInt8)) Event :=
  connection.observe fun _ e => e.sent

theorem sentInv_of_reachable (h : sending.Reachable (c, calls)) :
    connection.Reachable c ∧ ∃ tagged, c.SentInv calls tagged := by
  have hempty : ∀ s, Connection.new.unsent s = [] := by
    intro s
    cases s <;> rfl
  refine Machine.Reachable.observed (I := fun c calls => ∃ tagged, c.SentInv calls tagged) h
    ⟨[], rfl, Merged.nil.giveUp (fun s => hempty s ▸ List.Sublist.refl _)
      fun _ => ⟨trivial, hempty⟩⟩ fun u es l u' hu hI hnext => ?_
  obtain ⟨tagged, hinv⟩ := hI
  exact (traffic_of_next hu hnext).sentInv (next_step hnext).state.2 hinv

/-! ### What a client reads -/

variable {client : Config} {ms : List Message} {bufs : List (List UInt8)}

/-- The data messages that a server sends are the binary ones. -/
theorem Message.Outgoing.isControl_iff (hm : m.Outgoing) :
    m.opcode.isControl = false ↔ m.opcode = .binary := by
  rcases hm.kind with hop | ⟨hop | hop, -⟩ <;> rw [hop] <;> decide

/-- What a server sends is a frame that a client accepts. -/
theorem Message.Outgoing.frame (hm : m.Outgoing) (hclient : client.server = false)
    (hsize : m.opcode = .binary →
      m.payload.length ≤ client.maxMessageSize ∧ m.payload.length < 2 ^ 64) :
    ∃ f : Frame, m.bytes = f.encode ∧ f.Whole client ∧
      f.message = { opcode := m.opcode, payload := m.payload } := by
  have hopcode : m.opcode.reserved = false ∧ m.opcode ≠ .continuation ∧ m.opcode ≠ .text := by
    rcases hm.kind with hop | ⟨hop | hop, -⟩ <;> rw [hop] <;> decide
  have hcontrol : m.opcode.isControl = true → m.payload.length ≤ payloadSizeBasic := by
    intro hop
    rcases hm.kind with hbin | ⟨-, hlen⟩
    · rw [hbin] at hop
      exact nomatch hop
    · exact hlen
  refine ⟨⟨m.opcode, true, none, m.payload⟩, ?_, ?_, rfl⟩
  · rw [Message.bytes, hm.header]
    rfl
  · have hrole : client.server = !serverConfig.server := hclient
    obtain ⟨sent, hsent, hop, hpayload⟩ : ∃ sent : Message, sent.Sendable client ∧
        sent.opcode = m.opcode ∧ sent.payload = m.payload :=
      ⟨{ opcode := m.opcode, payload := m.payload }, ⟨rfl, ⟨hopcode.1, hopcode.2.1⟩,
        fun hop => hsize (hm.isControl_iff.1 hop)⟩, rfl, rfl⟩
    have hwhole : (⟨sent.opcode, true, serverConfig.frameKey .zero, sent.payload⟩ : Frame).Whole
        client := by
      refine whole_frame hrole hsent (fun h => ?_) fun h => absurd (hop ▸ h) hopcode.2.2
      rw [hpayload]
      exact hcontrol (hop ▸ h)
    rwa [hop, hpayload] at hwhole

theorem filter_isData (hms : ∀ m ∈ ms, m.Outgoing) :
    (ms.map fun m => ({ opcode := m.opcode, payload := m.payload } : Message)).filter
        Message.isData =
      (binaries ms).map fun data => { opcode := .binary, payload := data } := by
  induction ms with
  | nil => rfl
  | cons m ms ih =>
    have ih := ih fun m' hm' => hms m' (List.mem_cons_of_mem m hm')
    have hm := (hms m List.mem_cons_self).isControl_iff
    rw [List.map_cons, binaries]
    cases hop : m.opcode.isControl with
    | true =>
      have hne : m.opcode ≠ .binary := fun h => by
        rw [hm.2 h] at hop
        exact nomatch hop
      rw [List.filter_cons_of_neg (by simp [Message.isData, hop]),
        List.filter_cons_of_neg (by simp [hne]), ih, binaries]
    | false =>
      have hbin := hm.1 hop
      rw [List.filter_cons_of_pos (by simp [Message.isData, hop]),
        List.filter_cons_of_pos (by simp [hbin]), ih, binaries, List.map_cons, List.map_cons, hbin]

/-- The connection is open and has nothing to do. -/
structure Connection.Idle (c : Connection) : Prop where
  opened : c.state = .opened
  io : c.io = []
  senders : ∀ k, c.senders k = none
  posted : c.writer.posted = 0
  writes : c.writer.writes = []

theorem Connection.Idle.unsent (h : c.Idle) (s : Option ℕ) : c.unsent s = [] := by
  cases s with
  | none => rw [Connection.unsent, h.io, List.filterMap_nil]
  | some k => rw [Connection.unsent, h.senders k, Option.bind_none, Option.toList_none]

/-- What was written is the beginning of what was accepted, and all of it when nothing is left to be
done. -/
theorem wire_begins (hc : connection.Reachable c) :
    c.writer.wire <+: messageBytes c.writer.accepted ∧
      (c.Idle → c.writer.wire = messageBytes c.writer.accepted) := by
  obtain ⟨phase, hinv⟩ := writeInv_of_reachable hc
  obtain ⟨-, hbegin, -⟩ := hinv.sound.summary
  refine ⟨?_, fun hidle => ?_⟩
  · rw [hinv.sound.queue, Writer.messageBytes_append]
    exact (List.prefix_append _ _).trans (hbegin.trans (List.prefix_append _ _))
  · obtain rfl := hinv.free (by rw [hidle.opened]; decide) hidle.writes (by rw [hidle.io]; nofun)
    have hqueue : c.writer.sendQueue = [] := by
      refine (awake_of_reachable hc).sendQueue hinv.sound hidle.posted ?_ fun k => ?_
      · rw [hidle.io]
        exact nofun
      · rw [hidle.senders k]
        exact nofun
    exact hinv.sound.wire hqueue

/-- What a client reads are the first binary messages that were accepted, and all of them when the
connection has come to rest and all bytes have come. -/
theorem binaries_read (hc : connection.Reachable c) (hclient : client.server = false)
    (hsize : ∀ data ∈ binaries c.writer.accepted,
      data.length ≤ client.maxMessageSize ∧ data.length < 2 ^ 64)
    (hbufs : bufs.flatten <+: c.writer.wire) :
    ∃ msgs p n, readAll client .new bufs = (msgs, .ok p) ∧
      msgs.filter Message.isData = ((binaries c.writer.accepted).take n).map (fun data =>
        { opcode := .binary, payload := data }) ∧
      (c.Idle → bufs.flatten = c.writer.wire → (binaries c.writer.accepted).length ≤ n) := by
  obtain ⟨hwire, hidle⟩ := wire_begins hc
  have hout := (messages_of_reachable hc).outgoing
  -- the messages that were accepted are frames that the client accepts
  have hframes : List.Forall₂ (fun m out : Message => ∃ f : Frame, out.bytes = f.encode ∧
      f.Whole client ∧ f.message = { opcode := m.opcode, payload := m.payload })
      c.writer.accepted c.writer.accepted := by
    refine List.forall₂_same.2 fun m hm => (hout m hm).frame hclient fun hop => hsize _ ?_
    exact List.mem_map.2 ⟨m, List.mem_filter.2 ⟨hm, by simp [hop]⟩, rfl⟩
  obtain ⟨gs, hbytes, hgs, hmsgs⟩ := frames_of_messages hframes
  have hlen : gs.length = c.writer.accepted.length := by
    simpa using congrArg List.length hmsgs
  have hbegin : bufs.flatten <+: encodes gs :=
    (hbufs.trans hwire).trans (hbytes ▸ List.prefix_rfl)
  obtain ⟨k, p, hread, hall⟩ := readAll_whole hgs hbegin
  obtain ⟨n, hn⟩ : ∃ n,
      binaries (c.writer.accepted.take k) = (binaries c.writer.accepted).take n := by
    refine ⟨_, List.prefix_iff_eq_take.1 ?_⟩
    conv_rhs => rw [← List.take_append_drop k c.writer.accepted]
    rw [binaries_append]
    exact List.prefix_append _ _
  refine ⟨_, p, n, hread, ?_, fun hrest hbufs' => ?_⟩
  · rw [List.map_take, hmsgs, ← List.map_take,
      filter_isData fun m hm => hout m (List.mem_of_mem_take hm), hn]
  · obtain rfl := hall ((hbufs'.trans (hidle hrest)).trans hbytes)
    rw [hlen, List.take_length] at hn
    exact (List.take_eq_self_iff _).1 hn.symm

/-- **What is sent is received**: whatever the threads do and in whatever pieces the bytes come, a
client reads nothing but messages that were sent to it, each at most once, and those of one thread,
or of the message handler, in the order in which they were sent. When the connection is open and has
nothing to do, and the client has read all bytes, then it has got every message. -/
theorem sends_received (client : Config) (hclient : client.server = false) (c : Connection)
    (calls : List (Option ℕ × List UInt8)) (hc : sending.Reachable (c, calls))
    (hsize : ∀ x ∈ calls, x.2.length ≤ client.maxMessageSize ∧ x.2.length < 2 ^ 64)
    (bufs : List (List UInt8)) (hbufs : bufs.flatten <+: c.writer.wire) :
    ∃ msgs p got, readAll client .new bufs = (msgs, .ok p) ∧
      msgs.filter Message.isData = got.map (fun x => { opcode := .binary, payload := x.2 }) ∧
      (∀ s, (sentBy s got).Sublist (sentBy s calls)) ∧
      (c.Idle → bufs.flatten = c.writer.wire → ∀ s, sentBy s got = sentBy s calls) := by
  obtain ⟨hreach, tagged, haccepted, hmerged⟩ := sentInv_of_reachable hc
  have hsize' : ∀ data ∈ binaries c.writer.accepted,
      data.length ≤ client.maxMessageSize ∧ data.length < 2 ^ 64 := by
    rw [← haccepted]
    intro data hdata
    obtain ⟨x, hx, rfl⟩ := List.mem_map.1 hdata
    exact hsize x (hmerged.mem hx)
  obtain ⟨msgs, p, n, hread, hmsgs, hall⟩ := binaries_read hreach hclient hsize' hbufs
  refine ⟨msgs, p, tagged.take n, hread, ?_, fun s => hmerged.take s n, fun hrest hbufs' s => ?_⟩
  · rw [hmsgs, ← haccepted, ← List.map_take, List.map_map]
    rfl
  · have hlength : tagged.length ≤ n := by
      rw [← List.length_map Prod.snd, haccepted]
      exact hall hrest hbufs'
    rw [List.take_of_length_le hlength]
    exact hmerged.rest hrest.opened (hrest.unsent s)

/-- One message, which arrives in two pieces when the connection has come to rest. -/
theorem sends_received_one : ∃ c, sending.run (.new, []) oneSend = some (c, [(some 0, [1])]) ∧
    c.Idle ∧ ∃ msgs p got, readAll ⟨false, 32000000⟩ .new [[0x82, 1], [1]] = (msgs, .ok p) ∧
      msgs.filter Message.isData = got.map (fun x => { opcode := .binary, payload := x.2 }) ∧
      ∀ s, sentBy s got = sentBy s [(some 0, [1])] := by
  obtain ⟨c, hrun, hidle, hwire⟩ : ∃ c,
      sending.run (.new, []) oneSend = some (c, [(some 0, [1])]) ∧ c.Idle ∧
        [[(0x82 : UInt8), 1], [1]].flatten = c.writer.wire := by
    refine ⟨_, rfl, ⟨rfl, rfl, fun k => ?_, rfl, rfl⟩, rfl⟩
    cases k <;> rfl
  obtain ⟨msgs, p, got, hread, hmsgs, -, hall⟩ := sends_received ⟨false, 32000000⟩ rfl c _
    (.of_run hrun) (List.forall_mem_singleton.2 (by decide)) [[0x82, 1], [1]]
    (hwire ▸ List.prefix_rfl)
  exact ⟨c, hrun, hidle, msgs, p, got, hread, hmsgs, hall hidle hwire⟩

/-! ### What the server reads -/

theorem messages_of_calls {b : Prop} [Decidable b] :
    (Callback.opened :: ms.map Callback.message ++
      if b then [Callback.closed] else []).filterMap Callback.message? = ms := by
  rw [List.filterMap_append, List.filterMap_cons, List.filterMap_map]
  have hmessages : ms.filterMap (Callback.message? ∘ Callback.message) = ms :=
    List.filterMap_some
  split_ifs <;> simp [hmessages, Callback.message?]

theorem prepared_read {outs : List Message} (hclient : client.server = false)
    (hprep : List.Forall₂ (fun m out => ∃ rng, client.prepare rng m = .ok out) ms outs)
    (hms : ∀ m ∈ ms, m.Sendable serverConfig)
    (hbufs : bufs.flatten <+: outs.flatMap Message.bytes) :
    ∃ n, (readAll serverConfig .new bufs).1 = (ms.map fun m =>
        ({ opcode := m.opcode, payload := m.payload } : Message)).take n ∧
      (bufs.flatten = outs.flatMap Message.bytes → ms.length ≤ n) := by
  have hrole : serverConfig.server = !client.server := by
    rw [hclient]
    rfl
  obtain ⟨gs, hbytes, hgs, hplain⟩ := prepared_frames hrole hprep hms
  obtain ⟨n, p, hread, hn⟩ := readAll_whole hgs (hbufs.trans (hbytes ▸ List.prefix_rfl))
  have hlength : gs.length = ms.length := by
    simpa using congrArg List.length hplain
  refine ⟨n, ?_, fun hall => ?_⟩
  · rw [← hplain, ← List.map_take]
    exact congrArg Prod.fst hread
  · rw [hn (hall.trans hbytes), hlength]

/-- The message handler was called for the first data messages of those that a client has sent. -/
theorem callbacks_begin {outs : List Message} (hclient : client.server = false)
    (hprep : List.Forall₂ (fun m out => ∃ rng, client.prepare rng m = .ok out) ms outs)
    (hms : ∀ m ∈ ms, m.Sendable serverConfig) (hc : connection.Reachable c)
    (hreads : c.reads.flatten <+: outs.flatMap Message.bytes) :
    c.callbacks.filterMap Callback.message? <+:
      (ms.map fun m => ({ opcode := m.opcode, payload := m.payload } : Message)).filter
        Message.isData := by
  obtain ⟨handled, hcalls, hread⟩ := readInv_of_reachable hc
  obtain ⟨done, hmsgs, hbegin, -⟩ := hread.read
  obtain ⟨n, hn, -⟩ := prepared_read hclient hprep hms hreads
  rw [hn] at hmsgs
  rw [hcalls.calls, messages_of_calls]
  refine hbegin.trans (List.IsPrefix.filter Message.isData ?_)
  exact (hmsgs ▸ List.prefix_append done _).trans (List.take_prefix n _)

/-- **What a client sends is handled**: when what has come is a part of the messages that a client
has sent, the message handler was called for the first data messages, in their order and for each
once. While the connection is open and the asio thread has handled what was read, it was called for
all that have come. -/
theorem messages_handled (client : Config) (hclient : client.server = false)
    (ms outs : List Message)
    (hprep : List.Forall₂ (fun m out => ∃ rng, client.prepare rng m = .ok out) ms outs)
    (hms : ∀ m ∈ ms, m.Sendable serverConfig) (c : Connection) (hc : connection.Reachable c)
    (hreads : c.reads.flatten <+: outs.flatMap Message.bytes) :
    c.callbacks.filterMap Callback.message? <+:
        (ms.map fun m => ({ opcode := m.opcode, payload := m.payload } : Message)).filter
          Message.isData ∧
      (c.state = .opened → c.io = [] → c.reads.flatten = outs.flatMap Message.bytes →
        c.callbacks.filterMap Callback.message? =
          (ms.map fun m => ({ opcode := m.opcode, payload := m.payload } : Message)).filter
            Message.isData) := by
  refine ⟨callbacks_begin hclient hprep hms hc hreads, fun hs hio hbufs => ?_⟩
  obtain ⟨handled, hcalls, hread⟩ := readInv_of_reachable hc
  obtain ⟨done, hmsgs, -, hall⟩ := hread.read
  obtain ⟨n, hn, hlength⟩ := prepared_read hclient hprep hms hreads
  rw [hn, List.take_of_length_le (by simpa using hlength hbufs), hio, List.filterMap_nil,
    List.append_nil] at hmsgs
  rw [hcalls.calls, messages_of_calls, hall hs, hmsgs]

/-- A binary message of one byte was read and handled. -/
theorem messages_handled_one :
    ∃ c, connection.run .new (.read [0x82, 0x81, 0, 0, 0, 0, 1] :: List.replicate 3 .io) = some c ∧
      c.state = .opened ∧ c.io = [] ∧
      c.callbacks.filterMap Callback.message? = [{ opcode := .binary, payload := [1] }] := by
  have hrun : (connection.run .new (.read [0x82, 0x81, 0, 0, 0, 0, 1] :: List.replicate 3 .io)).any
      (fun c => decide (c.state = .opened ∧ c.io = [] ∧
        c.reads = [[0x82, 0x81, 0, 0, 0, 0, 1]])) = true := by
    decide +kernel
  obtain ⟨c, hc, hp⟩ := (Option.any_eq_true _ _).1 hrun
  obtain ⟨hstate, hio, hreads⟩ := of_decide_eq_true hp
  have hflatten : c.reads.flatten = [(0x82 : UInt8), 0x81, 0, 0, 0, 0, 1] := by
    rw [hreads]
    rfl
  refine ⟨c, hc, hstate, hio, (messages_handled ⟨false, 32000000⟩ rfl
    [{ opcode := .binary, payload := [1] }]
    [{ header := [0x82, 0x81, 0, 0, 0, 0], payload := [1], opcode := .binary, prepared := true }]
    (.cons ⟨.zero, rfl⟩ .nil) (List.forall_mem_singleton.2 ⟨rfl, ⟨rfl, nofun⟩, fun _ => by decide⟩)
    c (.of_run hc) ?_).2 hstate hio hflatten⟩
  rw [hflatten]
  exact ⟨[], rfl⟩

end Websocket

end MoonJamRelay
